import Messq.Effect.Request

/-! # What the audit trail gains

Every request but the trim only appends to the `events` table, with ids above those that are there (`journal`). `Logs`
is a transaction that appended given events and fanned out some of them; `applyRequest_logs` says for each request what
it appended: the events bear the time of the request, a seek's and a purge's apart, and only a fetch reports
deliveries. -/

namespace Messq

open Lib Table Relation

variable {name stream consumer : Bytes} {e : Event} {es es' : List Event} {st st' : Store} {start : StartPosition}
  {u : Unit} {batch : ℕ} {maxBytes : ℤ} {env : Env} {P : Event → Prop} {kind : Kind}

/-! ## Appending -/

/-- The table with the events appended. -/
def journal (t : Table EventRow.id) (es : List Event) : Table EventRow.id :=
  es.foldl (fun t e => t.insertIgnore ⟨nextEventId t, e⟩) t

theorem journal_append (t : Table EventRow.id) (es es' : List Event) :
    journal t (es ++ es') = journal (journal t es) es' :=
  List.foldl_append

theorem foldl_max_le (l : List ℤ) (m : ℤ) : m ≤ l.foldl max m ∧ ∀ x ∈ l, x ≤ l.foldl max m := by
  induction l generalizing m with
  | nil => exact ⟨le_rfl, fun _ h => nomatch h⟩
  | cons y l ih =>
    obtain ⟨hm, hl⟩ := ih (max m y)
    refine ⟨(le_max_left m y).trans hm, fun x hx => ?_⟩
    rcases List.mem_cons.mp hx with rfl | hx
    · exact (le_max_right m x).trans hm
    · exact hl x hx

theorem lt_nextEventId {t : Table EventRow.id} {r : EventRow} (h : r ∈ t) : r.id < nextEventId t :=
  Int.lt_add_one_of_le ((foldl_max_le _ 0).2 _ (List.mem_map.mpr ⟨r, h, rfl⟩))

/-- The id is new, so the row goes to the end. -/
theorem rows_insertEvent (t : Table EventRow.id) (e : Event) :
    (t.insertIgnore ⟨nextEventId t, e⟩).rows = t.rows ++ [⟨nextEventId t, e⟩] := by
  have hfree : t.find? (nextEventId t) = none :=
    find?_eq_none.mpr fun r hr he => absurd (lt_nextEventId hr) (by rw [he]; exact lt_irrefl _)
  cases hi : t.insert ⟨nextEventId t, e⟩ with
  | none =>
    obtain ⟨r, hr⟩ := insert_eq_none.mp hi
    exact absurd (hfree.symm.trans hr) nofun
  | some t' =>
    rw [Table.insertIgnore, hi, Option.getD_some]
    exact rows_insert hi

/-- The rows that were there stay, and the new ones have higher ids and are the events in order. -/
theorem rows_journal (t : Table EventRow.id) (es : List Event) : ∃ new : List EventRow,
    (journal t es).rows = t.rows ++ new ∧ new.map EventRow.event = es ∧ ∀ r ∈ t, ∀ r' ∈ new, r.id < r'.id := by
  induction es using List.reverseRecOn with
  | nil => exact ⟨[], (List.append_nil _).symm, rfl, fun _ _ _ h => nomatch h⟩
  | append_singleton es e ih =>
    obtain ⟨new, hrows, hmap, hlt⟩ := ih
    refine ⟨new ++ [⟨nextEventId (journal t es), e⟩], ?_, by simp [hmap], fun r hr r' hr' => ?_⟩
    · rw [journal_append, ← List.append_assoc, ← hrows]
      exact rows_insertEvent _ _
    · rcases List.mem_append.mp hr' with hr' | hr'
      · exact hlt r hr r' hr'
      · obtain rfl := List.mem_singleton.mp hr'
        exact lt_nextEventId (mem_iff.mpr (by rw [hrows]; exact List.mem_append_left _ hr))

/-- A transaction that appended `es`, and fanned out some of them. -/
structure Logs (st : Store) (es : List Event) (st' : Store) : Prop where
  events : st'.events = journal st.events es
  carriers : ∃ cs, st'.carriers = st.carriers ++ cs ∧ ∀ e ∈ cs, e ∈ es

theorem Logs.trans {st₁ st₂ st₃ : Store} (h₁ : Logs st₁ es st₂) (h₂ : Logs st₂ es' st₃) : Logs st₁ (es ++ es') st₃ := by
  obtain ⟨cs, hc, hsub⟩ := h₁.carriers
  obtain ⟨cs', hc', hsub'⟩ := h₂.carriers
  refine ⟨by rw [h₂.events, h₁.events, journal_append], cs ++ cs', by rw [hc', hc, List.append_assoc], fun e he => ?_⟩
  exact (List.mem_append.mp he).elim (fun h => List.mem_append_left _ (hsub e h)) fun h =>
    List.mem_append_right _ (hsub' e h)

/-- What was appended can be read back. -/
theorem Logs.unique (h : Logs st es st') (h' : Logs st es' st') : es = es' := by
  obtain ⟨new, hrows, hmap, -⟩ := rows_journal st.events es
  obtain ⟨new', hrows', hmap', -⟩ := rows_journal st.events es'
  rw [← h.events, h'.events, hrows'] at hrows
  rw [← hmap, ← hmap', List.append_cancel_left hrows]

/-- Nothing is appended. -/
theorem logs_nil (he : st'.events = st.events) (hc : st'.carriers = st.carriers) : Logs st [] st' :=
  ⟨he, [], by rw [hc, List.append_nil], fun _ h => nomatch h⟩

theorem logs_logged (st : Store) (e : Event) : Logs st [e] (st.logged e) := ⟨rfl, [e], rfl, fun _ h => h⟩

/-- A transaction that appended events with a given property. -/
def Journals (P : Event → Prop) (st st' : Store) : Prop := ∃ es, Logs st es st' ∧ ∀ e ∈ es, P e

section Journals

variable {α β : Type}

theorem journals_quiet (he : st'.events = st.events) (hc : st'.carriers = st.carriers) :
    Journals P st st' := ⟨[], logs_nil he hc, fun _ h => nomatch h⟩

theorem Journals.refl (st : Store) : Journals P st st := journals_quiet rfl rfl

theorem Journals.trans (st₁ st₂ st₃ : Store) (h₁ : Journals P st₁ st₂) (h₂ : Journals P st₂ st₃) :
    Journals P st₁ st₃ := by
  obtain ⟨es, hl, hp⟩ := h₁
  obtain ⟨es', hl', hp'⟩ := h₂
  exact ⟨es ++ es', hl.trans hl', fun e he => (List.mem_append.mp he).elim (hp e) (hp' e)⟩

theorem journals_logged (he : P e) : Journals P st (st.logged e) :=
  ⟨[e], logs_logged st e, fun _ h => by rwa [List.mem_singleton.mp h]⟩

/-- A command that only reads. -/
theorem journals_of_reads {x : Tx α} (h : Within Eq x) : Within (Journals P) x := fun s a s' hs => by
  obtain rfl := h s a s' hs
  exact .refl s

theorem journals_pure (a : α) : Within (Journals P) (pure a : Tx α) := Within.pure .refl a

theorem journals_bind {x : Tx α} {f : α → Tx β} (hx : Within (Journals P) x) (hf : ∀ a, Within (Journals P) (f a)) :
    Within (Journals P) (x >>= f) := hx.bind Journals.trans hf

theorem journals_map {x : Tx α} (f : α → β) (hx : Within (Journals P) x) : Within (Journals P) (f <$> x) := by
  rw [← bind_pure_comp]
  exact journals_bind hx fun _ => journals_pure _

theorem journals_ite {c : Prop} [Decidable c] {x y : Tx α} (hx : Within (Journals P) x) (hy : Within (Journals P) y) :
    Within (Journals P) (if c then x else y) := by
  split
  · exact hx
  · exact hy

theorem journals_get {f : Store → Tx β} (hf : ∀ st, WithinAt (Journals P) st (f st)) :
    Within (Journals P) (get >>= f) :=
  fun st => WithinAt.get_bind (hf st)

theorem journals_modify {f : Store → Store} (he : ∀ st, (f st).events = st.events)
    (hc : ∀ st, (f st).carriers = st.carriers) :
    Within (Journals P) (modify f : Tx Unit) := Within.modify fun st => journals_quiet (he st) (hc st)

theorem journals_commitEvent (he : P e) : Within (Journals P) (commitEvent e) := fun st a st' h => by
  obtain rfl := commitEvent_run.mp h
  exact journals_logged he

theorem journals_insertEvent (he : P e) : Within (Journals P) (insertEvent e) := fun st a st' h => by
  obtain rfl := insertEvent_run.mp h
  exact ⟨[e], ⟨rfl, [], (List.append_nil _).symm, fun _ h => nomatch h⟩, fun _ h => by rwa [List.mem_singleton.mp h]⟩

theorem journals_refuse (r : Refusal) : Within (Journals P) (refuse r : Tx α) := fun _ _ _ h => nomatch h

theorem reads_check {r : Except Refusal α} : Within Eq (Tx.check r : Tx α) := fun _ _ _ h => (check_run.mp h).2

theorem reads_require {f : Fault} {o : Option α} : Within Eq (Tx.require f o : Tx α) :=
  fun _ _ _ h => (require_run.mp h).2

end Journals

/-! ## Background requests -/

/-- The event bears the time of the request and reports no delivery, and only some requests report a death or a
lapse. -/
def Stamped (env : Env) (kind : Kind) (e : Event) : Prop :=
  e.ts = env.nowMs ∧ e.name ≠ .msgDeliver ∧ (kind ≠ .delivery → e.name ≠ .msgDead ∧ e.name ≠ .msgTimeout)

theorem stamped_of_plain (hts : e.ts = env.nowMs) (hn : e.name.plain = true) : Stamped env kind e := by
  refine ⟨hts, fun h => ?_, fun _ => ⟨fun h => ?_, fun h => ?_⟩⟩ <;>
  · rw [h] at hn
    cases hn

theorem logs_appended (st : Store) (m : MessageRow) (msgs : Table MessageRow.key) (e : Event) :
    Logs st [e] (st.appended m msgs e) := ⟨rfl, [e], rfl, fun _ h => h⟩

/-- What a lazy creation appends. -/
def ensuredEvents (env : Env) (st : Store) (dlq origin : Bytes) : List Event :=
  if (st.streams.find? dlq).isSome then [] else [dlqCreateEvent env dlq origin]

/-- The event of a lazy creation is not fanned out. -/
theorem logs_ensured (st : Store) (dlq origin : Bytes) :
    Logs st (ensuredEvents env st dlq origin) (st.ensured env dlq origin) := by
  refine ⟨?_, [], (List.append_nil _).symm, fun _ h => nomatch h⟩
  cases hs : (st.streams.find? dlq).isSome <;> simp [Store.ensured, ensuredEvents, hs, journal]

theorem mem_ensuredEvents {dlq origin : Bytes} (h : e ∈ ensuredEvents env st dlq origin) :
    e = dlqCreateEvent env dlq origin := by
  unfold ensuredEvents at h
  split at h
  · cases h
  · exact List.mem_singleton.mp h

/-- The sink writes the report of the death, and before it the creation of the stream. -/
theorem Buried.journals {d : DeadCtx} (h : Buried env d st st')
    (hdead : ∀ policy outcome, P (deadEvent env d policy outcome))
    (hseed : ∀ dlq origin, P (dlqCreateEvent env dlq origin)) : Journals P st st' := by
  cases h with
  | report policy outcome => exact journals_logged (hdead _ _)
  | copy c origin m row msgs trimmed truncated =>
    refine Journals.trans _ _ _ ⟨_, logs_ensured st _ _, fun e he => ?_⟩ ⟨_, logs_appended _ _ _ _, fun e he => ?_⟩
    · rw [mem_ensuredEvents he]
      exact hseed _ _
    · rw [List.mem_singleton.mp he]
      exact hdead _ _

theorem Act.journals (h : Act env kind st st') (hk : kind ≠ .trimming) : Journals (Stamped env kind) st st' := by
  cases h with
  | log _ e hts hn => exact journals_logged (stamped_of_plain hts hn)
  | lapse _ e hts hn => exact journals_logged ⟨hts, by simp [hn], fun hk => absurd rfl hk⟩
  | ack _ d e t _ _ hts hn =>
    have hlog : Journals (Stamped env .delivery) st (st.logged e) := journals_logged ⟨hts, by simp [hn], by simp [hn]⟩
    exact hlog.trans _ _ _ (journals_quiet rfl rfl)
  | die _ st₁ ctx d t hb =>
    refine Journals.trans _ st₁ _ (hb.journals (fun _ _ => ?_) fun _ _ => stamped_of_plain rfl rfl)
      (journals_quiet rfl rfl)
    exact ⟨rfl, nofun, fun hk => absurd rfl hk⟩
  | store _ m row msgs e hr hq hi hts hn =>
    refine ⟨[e], logs_appended st m msgs e, fun e' he' => ?_⟩
    rw [List.mem_singleton.mp he']
    exact ⟨hts, by simp [hn], by simp [hn]⟩
  | limit | extend | release | evict | tune | redact => exact journals_quiet rfl rfl
  | trim => exact absurd rfl hk

theorem Acts.journals (h : Acts env kind st st') (hk : kind ≠ .trimming) : Journals (Stamped env kind) st st' := by
  induction h with
  | refl => exact .refl st
  | tail _ ha ih => exact ih.trans _ _ _ (ha.journals hk)

/-! ## The other requests -/

theorem reads_refuseDuringReap : Within Eq (refuseDuringReap name) := fun _ _ _ h => (refuseDuringReap_run h).2

theorem reads_resumeSeq : Within Eq (resumeSeq name) := fun _ _ _ h => (resumeSeq_run h).2

theorem reads_resolveStartPosition :
    Within Eq (resolveStartPosition env stream start) := fun _ _ _ h => (resolveStartPosition_run h).1

theorem journals_createStream (cfg : StreamConfig) (actor : Bytes) :
    Within (Journals (Stamped env kind)) (createStream env cfg actor) := by
  refine journals_bind (journals_of_reads reads_refuseDuringReap) fun _ => journals_get fun st => ?_
  cases st.streams.rows.find? fun r => eqNoCase r.name cfg.name with
  | some existing => exact journals_ite (journals_refuse _) (journals_ite (journals_refuse _) (journals_pure _)) st
  | none =>
    refine .read_bind reads_resumeSeq fun next => .get_bind ?_
    refine .read_bind reads_require fun streams => .read_bind reads_require fun seqs =>
      .read_bind reads_require fun stats => ?_
    refine .set_bind Journals.trans (journals_quiet rfl rfl) ?_
    exact journals_bind (journals_commitEvent (stamped_of_plain rfl rfl)) (fun _ => journals_pure _) _

theorem journals_deleteStream (name actor : Bytes) :
    Within (Journals (Stamped env kind)) (deleteStream env name actor) := by
  refine journals_get fun st => ?_
  cases st.streamStats.find? name with
  | none => exact journals_refuse _ st
  | some stats =>
    refine .set_bind Journals.trans (journals_quiet rfl rfl) ?_
    exact journals_bind (journals_commitEvent (stamped_of_plain rfl rfl)) (fun _ => journals_pure _) _

theorem journals_reapChunk (name : Bytes) : Within (Journals (Stamped env kind)) (reapChunk name) :=
  journals_get fun _ => .set_bind Journals.trans (journals_quiet rfl rfl) (journals_pure _ _)

theorem journals_reapResume : Within (Journals (Stamped env kind)) reapResume := by
  refine journals_get fun st => ?_
  cases st.reapNames with
  | nil => exact journals_pure _ st
  | cons name names => exact journals_bind (journals_reapChunk name) (fun _ => journals_pure _) st

theorem reads_checkStartImmutable :
    Within Eq (checkStartImmutable stream name start) := fun _ _ _ h => (checkStartImmutable_run.mp h).2

theorem journals_createConsumer (stream : Bytes) (cfg : ConsumerConfig) (start : StartPosition) (actor : Bytes) :
    Within (Journals (Stamped env kind)) (createConsumer env stream cfg start actor) := by
  refine journals_bind (journals_of_reads reads_refuseDuringReap) fun _ => journals_get fun st => ?_
  split
  · exact journals_refuse _ st
  cases st.consumers.rows.find? fun c => c.stream == stream && eqNoCase c.name cfg.name with
  | none =>
    refine .read_bind reads_resolveStartPosition fun p => .get_bind ?_
    refine .read_bind reads_require fun consumers => .read_bind reads_require fun metaTable => ?_
    refine .set_bind Journals.trans (journals_quiet rfl rfl) ?_
    exact journals_bind (journals_commitEvent (stamped_of_plain rfl rfl)) (fun _ => journals_pure _) _
  | some existing =>
    refine .read_bind reads_checkStartImmutable fun _ => journals_ite (journals_pure _) ?_ st
    refine journals_bind (journals_of_reads reads_check) fun _ =>
      journals_bind (journals_of_reads reads_check) fun _ => ?_
    refine journals_bind (journals_modify (fun _ => rfl) fun _ => rfl) fun _ => ?_
    exact journals_bind (journals_commitEvent (stamped_of_plain rfl rfl)) fun _ => journals_pure _

theorem journals_setCursor (stream name : Bytes) (cursor : ℤ) :
    Within (Journals P) (setCursor stream name cursor) := journals_modify (fun _ => rfl) fun _ => rfl

theorem journals_shrinkDeliveries (stream name : Bytes) (bound : ℤ) :
    Within (Journals (Stamped env kind)) (shrinkDeliveries stream name bound) := by
  refine journals_get fun st => ?_
  dsimp only
  split
  · exact journals_pure _ st
  · split
    · exact journals_pure _ st
    · refine .set_bind Journals.trans (journals_quiet rfl rfl) ?_
      exact journals_bind (journals_setCursor _ _ _) (fun _ => journals_pure _) _

theorem journals_updateConsumer (stream name : Bytes) (p : ConsumerPatch) (actor : Bytes) :
    Within (Journals (Stamped env kind)) (updateConsumer env stream name p actor) := by
  refine journals_get fun st => ?_
  cases st.consumers.find? (stream, name) with
  | none => exact journals_refuse _ st
  | some existing =>
    refine journals_ite (journals_pure _) ?_ st
    refine journals_bind (journals_of_reads reads_check) fun _ =>
      journals_bind (journals_of_reads reads_check) fun _ => ?_
    have hrest : ∀ detail : Detail, Within (Journals (Stamped env kind)) (do
        setConsumerConfig stream name (p.apply existing.config)
        commitEvent {
          ts := env.nowMs, name := .consumerUpdate, stream := nullStr stream, consumer := nullStr name,
          actor := nullStr actor, detail := detail }
        return { existing.withConfig (p.apply existing.config) with filters := (p.apply existing.config).filters }) :=
      fun detail => journals_bind (journals_modify (fun _ => rfl) fun _ => rfl) fun _ =>
        journals_bind (journals_commitEvent (stamped_of_plain rfl rfl)) fun _ => journals_pure _
    cases p.shrinkTo existing with
    | none => exact hrest _
    | some bound => exact journals_bind (journals_shrinkDeliveries stream name bound) fun _ => hrest _

theorem journals_deleteConsumer (stream name actor : Bytes) :
    Within (Journals (Stamped env kind)) (deleteConsumer env stream name actor) := by
  refine journals_get fun st => ?_
  cases st.consumers.find? (stream, name) with
  | none => exact journals_refuse _ st
  | some c =>
    refine .set_bind Journals.trans (journals_quiet rfl rfl) ?_
    exact journals_bind (journals_commitEvent (stamped_of_plain rfl rfl)) (fun _ => journals_pure _) _

theorem journals_setPaused (stream name : Bytes) (paused : Bool) (actor : Bytes) :
    Within (Journals (Stamped env kind)) (setPaused env stream name paused actor) := by
  refine journals_get fun st => ?_
  cases st.consumers.find? (stream, name) with
  | none => exact journals_refuse _ st
  | some c =>
    dsimp only
    split
    · exact journals_pure _ st
    · exact .set_bind Journals.trans (journals_quiet rfl rfl) (journals_commitEvent (stamped_of_plain rfl rfl) _)

/-- The events of a seek and of a purge, which do not bear the time. -/
def Unstamped (dryRun : Bool) (e : Event) : Prop :=
  dryRun = false ∧ e.name ≠ .msgDeliver ∧ e.name ≠ .msgDead ∧ e.name ≠ .msgTimeout

theorem journals_seek (stream consumer : Bytes) (dest : StartPosition) (dryRun : Bool) (actor : Bytes) :
    Within (Journals (Unstamped dryRun)) (seek env stream consumer dest dryRun actor) := by
  refine journals_get fun st => ?_
  cases st.consumers.find? (stream, consumer) with
  | none => exact journals_refuse _ st
  | some c =>
    refine .read_bind reads_resolveStartPosition fun p => ?_
    dsimp only
    split
    · exact journals_refuse _ st
    refine .read_bind (fun _ _ _ h => (streamBounds_run h).1) fun q => ?_
    cases dryRun with
    | true => exact journals_pure _ st
    | false =>
      refine .set_bind Journals.trans (journals_quiet rfl rfl) ?_
      exact journals_bind (journals_commitEvent ⟨rfl, (by simp), (by simp), (by simp)⟩) (fun _ => journals_pure _) _

theorem journals_addStats (stream : Bytes) (msgs bytes : ℤ) :
    Within (Journals P) (addStats stream msgs bytes) := journals_modify (fun _ => rfl) fun _ => rfl

theorem journals_purgeRange (stream : Bytes) (upper next : ℤ) (dryRun : Bool) (actor : Bytes) :
    Within (Journals (Unstamped dryRun)) (purgeRange stream upper next dryRun actor) := by
  refine journals_get fun st => ?_
  dsimp only
  split
  · exact journals_pure _ st
  · rename_i hreal
    have hdry : dryRun = false := by simpa using (not_or.mp hreal).1
    refine .set_bind Journals.trans (journals_quiet rfl rfl) ?_
    exact journals_bind (journals_addStats _ _ _)
      (fun _ => journals_bind (journals_commitEvent ⟨hdry, nofun, nofun, nofun⟩) fun _ => journals_pure _) _

theorem journals_purgeScan (stream : Bytes) (pat : Option Subject.Pattern) (spec : PurgeSpec) (upper next : ℤ)
    (dryRun : Bool) (actor : Bytes) :
    Within (Journals (Unstamped dryRun)) (purgeScan stream pat spec upper next dryRun actor) := by
  refine journals_get fun st => ?_
  dsimp only
  split
  · exact journals_pure _ st
  · rename_i hreal
    have hdry : dryRun = false := by simpa using (not_or.mp hreal).1
    refine .set_bind Journals.trans (journals_quiet rfl rfl) ?_
    exact journals_bind (journals_addStats _ _ _)
      (fun _ => journals_bind (journals_commitEvent ⟨hdry, nofun, nofun, nofun⟩) fun _ => journals_pure _) _

theorem journals_purge (stream : Bytes) (spec : PurgeSpec) (dryRun : Bool) (actor : Bytes) :
    Within (Journals (Unstamped dryRun)) (purge stream spec dryRun actor) := by
  refine journals_bind (journals_of_reads fun _ _ _ h => (purgePattern_run h).1) fun pat => journals_get fun st => ?_
  exact journals_ite (journals_purgeRange stream _ _ dryRun actor)
    (journals_purgeScan stream pat spec _ _ dryRun actor) st

theorem journals_restart {unclean : Option Bytes} (hc : st.carriers = []) (h : restart env unclean st = .ok (u, st')) :
    Journals (Stamped env kind) st st' := by
  have hrec : ∀ {st₁ : Store}, st₁.carriers = [] → recover env st₁ = .ok (u, st') →
      Journals (Stamped env kind) st₁ st' := by
    intro st₁ hc₁ h
    simp only [recover, run_bind, run_get_bind, run_set_bind, run_modify, insertEvent_run] at h
    obtain ⟨_, _, rfl, rfl⟩ := h
    refine ⟨[_], ⟨rfl, [], by rw [hc₁]; rfl, by simp⟩, fun e he => ?_⟩
    rw [List.mem_singleton.mp he]
    exact stamped_of_plain rfl rfl
  cases unclean with
  | none => exact hrec hc h
  | some reason =>
    obtain ⟨_, st₁, h₁, h⟩ := run_bind.mp h
    have hj : Journals (Stamped env kind) st st₁ := journals_insertEvent (stamped_of_plain rfl rfl) _ _ _ h₁
    obtain rfl := insertEvent_run.mp h₁
    exact hj.trans _ _ _ (hrec hc h)

/-! ## Fetch -/

theorem logs_commitEvents (h : commitEvents es st = .ok (u, st')) : Logs st es st' := by
  induction es generalizing st with
  | nil =>
    obtain ⟨-, rfl⟩ := run_pure.mp h
    exact logs_nil rfl rfl
  | cons e es ih =>
    simp only [commitEvents, run_bind] at h
    obtain ⟨_, st₁, h₁, h⟩ := h
    have hrest := ih h
    obtain rfl := commitEvent_run.mp h₁
    exact (logs_logged st e).trans hrest

theorem journals_fetchAdmit (c : ConsumerRow) (next : ℤ) :
    Within (Journals (Stamped env kind)) (fetchAdmit env c next) := by
  refine journals_get fun st => ?_
  dsimp only
  split
  · refine journals_bind (journals_bind (journals_get fun st => ?_) fun due => ?_) (fun _ => journals_pure _) st
    · split
      · exact journals_pure _ st
      · exact .set_bind Journals.trans (journals_quiet rfl rfl) (journals_pure _ _)
    · exact journals_ite (journals_commitEvent (stamped_of_plain rfl rfl)) (journals_pure _)
  · refine journals_get (fun st => ?_) st
    cases Subject.parseSet c.filters with
    | error e => exact fun _ _ h => nomatch h
    | ok pats =>
      refine .set_bind Journals.trans (journals_quiet rfl rfl) ?_
      exact journals_bind (journals_setCursor _ _ _) (fun _ => journals_pure _) _

theorem logs_claimReady {nowMs ackWaitMs : ℤ} {claimed : List Claimed}
    (h : claimReady stream consumer nowMs ackWaitMs batch maxBytes st = .ok (claimed, st')) : Logs st [] st' := by
  obtain ⟨-, -, rfl⟩ := claimReady_spec h
  exact logs_nil rfl rfl

/-- A fetch reports what it claimed, in order, after what its top-up reported. -/
theorem fetch_logs {r : FetchResult} (h : fetch env stream consumer batch maxBytes st = .ok (r, st')) : ∃ es,
      Logs st (es ++ r.claimed.map (deliverEvent env.nowMs stream consumer)) st' ∧
        ∀ e ∈ es, Stamped env .upkeep e := by
  obtain ⟨c, -, -, -, -, -, ⟨-, hnil, rfl⟩ | ⟨-, head, _, st₁, st₂, _, -, h₁, h₂, h₃, -⟩⟩ := fetch_cases h
  · rw [hnil]
    exact ⟨[], logs_nil rfl rfl, by simp⟩
  · obtain ⟨es, hl, hp⟩ := journals_fetchAdmit c head.next _ _ _ h₁
    refine ⟨es, ?_, hp⟩
    have hall := (hl.trans (logs_claimReady h₂)).trans (logs_commitEvents h₃)
    rwa [List.append_nil] at hall

/-! ## Every request -/

/-- The requests whose events do not bear the time. -/
def Request.unstamped : Request → Bool
  | .seek _ _ _ dryRun _ | .purge _ _ dryRun _ => !dryRun
  | _ => false

/-- **Requests.** What a request appends to the audit trail. -/
theorem applyRequest_logs {req : Request} {reply : Reply} (hc : st.carriers = []) (hk : req.kind ≠ .trimming)
    (h : applyRequest env req st = .ok (reply, st')) :
    Journals (fun e => (req.unstamped = false → e.ts = env.nowMs) ∧ (req.fetches = false → e.name ≠ .msgDeliver) ∧
      (req.kind ≠ .delivery → e.name ≠ .msgDead ∧ e.name ≠ .msgTimeout)) st st' := by
  have hstamped : ∀ {st st'}, Journals (Stamped env req.kind) st st' → Journals (fun e =>
      (req.unstamped = false → e.ts = env.nowMs) ∧ (req.fetches = false → e.name ≠ .msgDeliver) ∧
        (req.kind ≠ .delivery → e.name ≠ .msgDead ∧ e.name ≠ .msgTimeout)) st st' :=
    fun ⟨es, hl, hp⟩ => ⟨es, hl, fun e he => ⟨fun _ => (hp e he).1, fun _ => (hp e he).2.1, (hp e he).2.2⟩⟩
  cases req with
  | createStream cfg actor => exact hstamped (journals_map _ (journals_createStream cfg actor) _ _ _ h)
  | deleteStream name confirm actor => exact hstamped (journals_map _ (journals_deleteStream name actor) _ _ _ h)
  | reapChunk name => exact hstamped (journals_map _ (journals_reapChunk name) _ _ _ h)
  | reapResume => exact hstamped (journals_map _ journals_reapResume _ _ _ h)
  | createConsumer stream cfg start actor =>
    exact hstamped (journals_map _ (journals_createConsumer stream cfg start actor) _ _ _ h)
  | updateConsumer stream name p actor =>
    exact hstamped (journals_map _ (journals_updateConsumer stream name p actor) _ _ _ h)
  | deleteConsumer stream name actor =>
    exact hstamped (journals_map _ (journals_deleteConsumer stream name actor) _ _ _ h)
  | setPaused stream name paused actor =>
    exact hstamped (journals_map _ (journals_setPaused stream name paused actor) _ _ _ h)
  | fetch stream consumer batch maxBytes =>
    obtain ⟨r, hr, -⟩ := run_map.mp h
    obtain ⟨es, hl, hp⟩ := fetch_logs hr
    refine ⟨_, hl, fun e he => ?_⟩
    rcases List.mem_append.mp he with he | he
    · exact ⟨fun _ => (hp e he).1, nofun, (hp e he).2.2⟩
    · obtain ⟨x, -, rfl⟩ := List.mem_map.mp he
      exact ⟨fun _ => rfl, nofun, fun _ => ⟨nofun, nofun⟩⟩
  | seek stream consumer dest dryRun actor =>
    obtain ⟨es, hl, hp⟩ := journals_map _ (journals_seek stream consumer dest dryRun actor) _ _ _ h
    refine ⟨es, hl, fun e he => ⟨fun hu => ?_, fun _ => (hp e he).2.1, fun _ => (hp e he).2.2⟩⟩
    rw [Request.unstamped, (hp e he).1] at hu
    cases hu
  | purge stream spec dryRun actor =>
    obtain ⟨es, hl, hp⟩ := journals_map _ (journals_purge stream spec dryRun actor) _ _ _ h
    refine ⟨es, hl, fun e he => ⟨fun hu => ?_, fun _ => (hp e he).2.1, fun _ => (hp e he).2.2⟩⟩
    rw [Request.unstamped, (hp e he).1] at hu
    cases hu
  | restart unclean =>
    obtain ⟨u, hu, -⟩ := run_map.mp h
    exact hstamped (journals_restart hc hu)
  | updateStream | publish | publishBatch | sweepDedup | settle | sweep | retire | retention | trimEvents
  | adminAction =>
    exact hstamped (Acts.journals (applyRequest_acts (by trivial) _ _ _ h) hk)

end Messq

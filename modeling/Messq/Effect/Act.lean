import Messq.Effect.Move

/-! # Acts

`Move` says enough about a background command for the invariants of one consumer. `Act` says what a statement
group does to every table: which rows it writes, under which report, with which time stamp. Each kind of command
is confined to its own acts, and every act is a run of moves (`Act.moves`). -/

namespace Messq

open Lib Table Relation

variable {env : Env} {e : Event} {m m' : MessageRow} {st st' : Store} {stream : Bytes} {d : DeadCtx} {row r : SeqRow}
  {t : Table DeliveryRow.key} {msgs : Table MessageRow.key}

/-! ## What the statements write -/

/-- The store after `commitEvent`. -/
def Store.logged (st : Store) (e : Event) : Store :=
  { st with events := st.events.insertIgnore ⟨nextEventId st.events, e⟩, carriers := st.carriers ++ [e] }

/-- The store after a message took the next number of its stream: number, identifier, row, counters, report. -/
def Store.appended (st : Store) (m : MessageRow) (msgs : Table MessageRow.key) (e : Event) : Store :=
  { st with
    streamSeq := st.streamSeq.update (fun r => r.stream == m.stream) (fun r => { r with next := r.next + 1 })
      fun _ _ => rfl
    minted := st.minted + 1
    messages := msgs
    streamStats := st.streamStats.update (fun r => r.stream == m.stream)
      (fun r => { r with msgs := r.msgs + 1, bytes := r.bytes + m.size }) fun _ _ => rfl
    events := st.events.insertIgnore ⟨nextEventId st.events, e⟩
    carriers := st.carriers ++ [e] }

/-- The event of a lazy creation. -/
def dlqCreateEvent (env : Env) (dlq origin : Bytes) : Event where
  ts := env.nowMs
  name := .streamCreate
  stream := nullStr dlq
  actor := some (str "system")
  detail := .dlqCreate origin

/-- The store after `ensureDLQStream`. -/
def Store.ensured (st : Store) (env : Env) (dlq origin : Bytes) : Store :=
  { st with
    streams := st.streams.insertIgnore (dlqRow env.opts.dlq dlq env.nowMs)
    streamSeq := st.streamSeq.insertIgnore ⟨dlq, 1⟩
    streamStats := st.streamStats.insertIgnore ⟨dlq, 0, 0, 0, 0⟩
    events := if (st.streams.find? dlq).isSome then st.events
      else st.events.insertIgnore ⟨nextEventId st.events, dlqCreateEvent env dlq origin⟩ }

/-- The messages a guarded delete takes. -/
def Store.evictable (st : Store) (stream : Bytes) (seqs : List ℤ) (m : MessageRow) : Bool :=
  m.stream == stream && seqs.contains m.seq && !st.pinned stream m.seq

/-- The store after the guarded delete and its watermarks. -/
def Store.evicted (st : Store) (stream : Bytes) (seqs : List ℤ) (high nowMs : ℤ) : Store :=
  let gone := st.messages.select (st.evictable stream seqs)
  { st with
    messages := st.messages.delete (st.evictable stream seqs)
    streamStats := if (gone.length : ℤ) > 0 ∧ high > 0 then
        st.streamStats.update (fun r => r.stream == stream)
          (fun r => { r with
            msgs := r.msgs - gone.length, bytes := r.bytes - (gone.map MessageRow.size).sum
            expiredSeq := max r.expiredSeq high, expiredAt := if high > r.expiredSeq then nowMs else r.expiredAt })
          fun _ _ => rfl
      else st.streamStats }

/-! ## Acts -/

/-- An event that reports no allocation, no delivery, no end of one and no lapse. -/
def EventName.plain : EventName → Bool
  | .msgPublish | .msgDeliver | .msgAck | .msgDead | .msgTimeout => false
  | _ => true

/-- The delivery an event is about. -/
def Event.about (e : Event) : Bytes × Bytes × ℤ := (e.stream.getD [], e.consumer.getD [], e.seq.getD 0)

/-- The event says why a delivery is waiting again: it was given back, or its lease lapsed. -/
def Event.Frees (e : Event) (k : Bytes × Bytes × ℤ) : Prop := (e.name = .msgNak ∨ e.name = .msgTimeout) ∧ e.about = k

/-- The background commands by what they are allowed to do. -/
inductive Kind
  | publish
  /-- Settle, sweep and retire. -/
  | delivery
  | retention
  /-- Updates of a stream, the dedup sweep, administrative actions. -/
  | upkeep
  /-- The trim of the audit trail. -/
  | trimming
  deriving DecidableEq

variable {kind : Kind}

/-- The delivery the sink is told about. -/
def DeadCtx.key (d : DeadCtx) : Bytes × Bytes × ℤ := (d.stream, d.consumer, d.seq)

/-- `m'` is `m`, perhaps without its key. -/
def MessageRow.Remains (m' m : MessageRow) : Prop := m' = m ∨ m' = { m with dedupKey := none }

theorem MessageRow.Remains.subject (h : m'.Remains m) : m'.subject = m.subject := by
  rcases h with rfl | rfl <;> rfl

theorem MessageRow.Remains.publishedAt (h : m'.Remains m) : m'.publishedAt = m.publishedAt := by
  rcases h with rfl | rfl <;> rfl

theorem MessageRow.Remains.key (h : m'.Remains m) : m'.key = m.key := by
  rcases h with rfl | rfl <;> rfl

/-- `m` is a dead-letter copy of `origin`. -/
structure MessageRow.Copies (m origin : MessageRow) : Prop where
  stream : m.stream = dlqName origin.stream
  subject : m.subject = origin.subject
  body : m.body = origin.body
  size : m.size = origin.size
  traceId : m.traceId = origin.traceId

/-- The same with what depends on the store and on the settings: the time stamp, and headers within twice the limit. -/
structure MessageRow.Copied (m : MessageRow) (env : Env) (st : Store) (origin : MessageRow) : Prop
    extends m.Copies origin where
  publishedAt : m.publishedAt = st.clampPublishedAt m.stream env.nowMs
  hdr : ∀ h, m.hdr = some h → h.marshal.length ≤ 2 * env.opts.limits.maxHeaderBytes

/-- `m` is what a publish writes: the stream takes its subject, its headers are within the limit, and its key, if it has
one, is new to the stream. -/
structure MessageRow.Published (m : MessageRow) (env : Env) (st : Store) : Prop where
  publishedAt : m.publishedAt = st.clampPublishedAt m.stream env.nowMs
  size : m.size = m.body.length
  hdr : ∀ h, m.hdr = some h → h.marshal.length ≤ env.opts.limits.maxHeaderBytes
  subject : ∃ row set, st.streams.find? m.stream = some row ∧ Subject.parseSet row.subjects = .ok set ∧
    set.match m.subject = true
  single : m.dedupKey ≠ none → ∀ m' ∈ st.messages, m'.stream = m.stream → m'.dedupKey ≠ m.dedupKey

/-- What the sink does with a delivery it accepts: a report, or a copy with its report. -/
inductive Buried (env : Env) (d : DeadCtx) (st : Store) : Store → Prop
  | report (policy : DeadPolicy) (outcome : DeadOutcome) (ho : outcome = .dropped ∨ outcome = .originMissing) :
      Buried env d st (st.logged (deadEvent env d policy outcome))
  | copy (c : ConsumerRow) (origin m : MessageRow) (row : SeqRow) (msgs : Table MessageRow.key)
      (trimmed truncated : Bool)
      (hc : st.consumers.find? (d.stream, d.consumer) = some c) (hp : c.deadPolicy = .dlq)
      (ho : st.messages.find? (d.stream, d.seq) = some origin) (hm : m.Copied env st origin)
      (hr : (st.streamSeq.insertIgnore ⟨dlqName d.stream, 1⟩).find? (dlqName d.stream) = some row)
      (hq : m.seq = row.next)
      (hi : st.messages.insert m = some msgs) (hn : m.dedupKey = none) :
      Buried env d st ((st.ensured env (dlqName d.stream) d.stream).appended m msgs
        (deadEvent env d .dlq (.written m.stream m.seq m.size trimmed truncated)))

inductive Act (env : Env) : Kind → Store → Store → Prop
  /-- An event, for the audit trail and the fan-out. -/
  | log {kind : Kind} (st : Store) (e : Event) (hts : e.ts = env.nowMs) (hn : e.name.plain = true) :
      Act env kind st (st.logged e)
  /-- The event of a lapsed lease. -/
  | lapse (st : Store) (e : Event) (hts : e.ts = env.nowMs) (hn : e.name = .msgTimeout) :
      Act env .delivery st (st.logged e)
  /-- The repeat limiter of the rejection events. -/
  | limit (st : Store) (limiter : Table LimiterRow.key) : Act env .delivery st { st with limiter := limiter }
  /-- A held delivery gets a new deadline. -/
  | extend (st : Store) (d : DeliveryRow) (visibleAt : ℤ) (t : Table DeliveryRow.key)
      (hd : st.deliveries.find? d.key = some d) (hs : d.state = .inflight)
      (ht : st.deliveries.Sets d.key (some { d with visibleAt := visibleAt }) t) :
      Act env .delivery st { st with deliveries := t }
  /-- A claimed delivery waits again; if it was held, an event says why, and it is below the bound. -/
  | release (st : Store) (d : DeliveryRow) (visibleAt : ℤ) (reason : Bytes) (t : Table DeliveryRow.key)
      (hd : st.deliveries.find? d.key = some d) (hs : d.state = .inflight ∨ 1 ≤ d.attempts)
      (hb : d.state = .inflight → ∀ c, st.consumers.find? (d.stream, d.consumer) = some c → ¬ c.AtBound d.attempts)
      (he : d.state = .inflight → ∃ e ∈ st.carriers, e.Frees d.key)
      (ht : st.deliveries.Sets d.key
        (some { d with state := .ready, visibleAt := visibleAt, lastReason := some reason }) t) :
      Act env .delivery st { st with deliveries := t }
  /-- A claimed delivery is acknowledged. -/
  | ack (st : Store) (d : DeliveryRow) (e : Event) (t : Table DeliveryRow.key) (hd : st.deliveries.find? d.key = some d)
      (hs : 1 ≤ d.attempts) (hts : e.ts = env.nowMs) (hn : e.name = .msgAck) (hk : e.about = d.key)
      (ht : st.deliveries.Sets d.key none t) : Act env .delivery st { st.logged e with deliveries := t }
  /-- A claimed delivery is given up: the sink takes it, and its row goes. -/
  | die (st st₁ : Store) (ctx : DeadCtx) (d : DeliveryRow) (t : Table DeliveryRow.key) (hb : Buried env ctx st st₁)
      (hd : st.deliveries.find? d.key = some d) (hs : d.state = .inflight ∨ 1 ≤ d.attempts) (hk : ctx.key = d.key)
      (hg : ctx.generation = d.generation ∨ ctx.generation = toInt32 d.generation)
      (ht : st.deliveries.Sets d.key none t) : Act env .delivery st { st₁ with deliveries := t }
  /-- A message is published. -/
  | store (st : Store) (m : MessageRow) (row : SeqRow) (msgs : Table MessageRow.key) (e : Event)
      (hr : st.streamSeq.find? m.stream = some row) (hq : m.seq = row.next) (hi : st.messages.insert m = some msgs)
      (hts : e.ts = env.nowMs) (hn : e.name = .msgPublish) (hk : (e.stream.getD [], e.seq.getD 0) = m.key)
      (hp : m.Published env st) : Act env .publish st (st.appended m msgs e)
  /-- Retention takes messages of a stream; on a work queue only those below every cursor. -/
  | evict (st : Store) (row : StreamRow) (seqs : List ℤ) (high : ℤ) (hr : row ∈ st.streams)
      (hq : ∀ q ∈ seqs, q ≤ high)
      (hw : row.retention = .workqueue → ∀ c ∈ st.consumers, c.stream = row.name → ∀ q ∈ seqs, q < c.cursorSeq) :
      Act env .retention st (st.evicted row.name seqs high env.nowMs)
  /-- A stream gets a new configuration. -/
  | tune (st : Store) (streams : Table StreamRow.name)
      (hs : ∀ s, (streams.find? s).isSome = (st.streams.find? s).isSome) :
      Act env .upkeep st { st with streams := streams }
  /-- Dedup keys are forgotten. -/
  | redact (st : Store) (p : MessageRow → Bool) :
      Act env .upkeep st { st with
        messages := st.messages.update p (fun m => { m with dedupKey := none }) fun _ _ => rfl }
  /-- The audit trail is trimmed. -/
  | trim (st : Store) (spec : TrimSpec) (batch : ℕ) :
      Act env .trimming st { st with events := (trimLoop spec env.nowMs batch batch st.events).1 }

/-- A run of acts. -/
abbrev Acts (env : Env) (kind : Kind) : Store → Store → Prop := ReflTransGen (Act env kind)

/-! ## Acts are moves -/

theorem moves_events (st : Store) (events) : Moves st { st with events := events } :=
  .single (.aside st _ _ _ _ _ _ fun _ _ h => .inl (by simp [h]))

theorem moves_logged (st : Store) (he : e.allocation = none) : Moves st (st.logged e) :=
  (moves_events st (st.events.insertIgnore ⟨_, e⟩)).tail (.note { st with events := _ } e he)

theorem allocation_of_plain (h : e.name.plain = true) : e.allocation = none := by
  unfold Event.allocation
  split
  · rename_i hn; rw [hn] at h; cases h
  · rename_i hn _; rw [hn] at h; cases h
  · rfl

/-- The counter of one stream goes up by one. -/
theorem find?_takeSeq {t : Table SeqRow.stream} (h : t.find? stream = some row) (s : Bytes) :
    (t.update (fun r => r.stream == stream) (fun r => { r with next := r.next + 1 }) fun _ _ => rfl).find? s =
      if s = stream then some ⟨stream, row.next + 1⟩ else t.find? s := by
  rw [find?_update]
  have hk := find?_key h
  split
  · rename_i e
    simp [e, h, hk]
  · rename_i e
    cases hs : t.find? s with
    | none => rfl
    | some r =>
      have : r.stream ≠ stream := fun he => e ((find?_key hs).symm.trans he)
      simp [this]

theorem moves_appended (hr : st.streamSeq.find? m.stream = some row) (hq : m.seq = row.next)
    (hi : st.messages.insert m = some msgs) (he : e.allocation = some (m.stream, row.next)) :
    Moves st (st.appended m msgs e) := by
  -- the counters, the audit row and the identifier first, then the message with its number and carrier
  let side : Store := { st with
    streamStats := st.streamStats.update (fun r => r.stream == m.stream)
      (fun r => { r with msgs := r.msgs + 1, bytes := r.bytes + m.size }) fun _ _ => rfl
    events := st.events.insertIgnore ⟨nextEventId st.events, e⟩
    minted := st.minted + 1 }
  have hside : Move st side := .aside st _ _ _ _ _ _ fun s r h => .inl fun hn => by simp [hn] at h
  exact (ReflTransGen.single hside).tail (.store side row m _ msgs e hr hq (find?_takeSeq hr) hi he)

theorem moves_ensured {c : ConsumerRow} (hc : c ∈ st.consumers) (hp : c.deadPolicy = .dlq) :
    Moves st (st.ensured env (dlqName c.stream) c.stream) := by
  -- the counter of the sequence first: the statistics row needs it
  let seeded : Store := { st with streamSeq := st.streamSeq.insertIgnore ⟨dlqName c.stream, 1⟩ }
  have hseed : Moves st seeded := by
    cases hs : st.streamSeq.find? (dlqName c.stream) with
    | none => exact .single (.seed st c hc hp hs)
    | some r =>
      have : st.streamSeq.insertIgnore ⟨dlqName c.stream, 1⟩ = st.streamSeq := insertIgnore_of_find? hs
      rw [show seeded = st by simp only [seeded, this]]
  refine hseed.tail (.aside seeded _ _ _ _ _ _ fun s r hr => ?_)
  rw [find?_insertIgnore] at hr
  split at hr
  · rename_i e
    exact .inr (by simp [seeded, e])
  · exact .inl (by simp [seeded, hr])

theorem deadEvent_about (env : Env) (d : DeadCtx) (policy : DeadPolicy) (outcome : DeadOutcome) :
    (deadEvent env d policy outcome).about = d.key := by
  simp only [Event.about, DeadCtx.key, deadEvent, nullStr_getD, nullI64_getD]

theorem Buried.moves (h : Buried env d st st') : Moves st st' := by
  cases h with
  | report policy outcome ho =>
    refine moves_logged st ?_
    rcases ho with rfl | rfl <;> rfl
  | copy c origin m row msgs trimmed truncated hc hp ho hm hr hq hi =>
    have hk := find?_key hc
    obtain ⟨hcs, -⟩ := Prod.mk.inj hk
    have hko := find?_key ho
    have hos : origin.stream = d.stream := (Prod.mk.inj hko).1
    have hms : m.stream = dlqName d.stream := hos ▸ hm.stream
    rw [← hcs] at hr hms ⊢
    have hseq : (st.ensured env (dlqName c.stream) c.stream).streamSeq.find? m.stream = some row := by
      rw [hms]; exact hr
    exact (moves_ensured (mem_of_find? hc) hp).trans (moves_appended hseq hq hi (by rw [← hq]; rfl))

/-- The counters that have gone up since `st`, those that were added among them. -/
def Store.advanced (st st' : Store) : List SeqRow :=
  st'.streamSeq.select fun r => (st.streamSeq.find? r.stream).all fun r₀ => decide (r₀.next < r.next)

theorem mem_advanced : r ∈ st.advanced st' ↔
    r ∈ st'.streamSeq ∧ ∀ r₀, st.streamSeq.find? r.stream = some r₀ → r₀.next < r.next := by
  simp [Store.advanced, Option.all_eq_true]

/-- What goes up in the middle goes up over the whole. -/
theorem Background.advanced {st₁ st₂ st₃ : Store} (h : Background st st₁) (h₂ : Background st₂ st₃)
    (hr : r ∈ st₁.advanced st₂) : ∃ r' ∈ st.advanced st₃, r'.stream = r.stream := by
  obtain ⟨hr, hlt⟩ := mem_advanced.mp hr
  obtain ⟨r', hr', hle⟩ := h₂.seq r.stream r (find?_of_mem hr)
  have hk := find?_key hr'
  refine ⟨r', mem_advanced.mpr ⟨mem_of_find? hr', fun r₀ hr₀ => ?_⟩, hk⟩
  rw [hk] at hr₀
  obtain ⟨r₁, hr₁, hle₁⟩ := h.seq _ _ hr₀
  have := hlt r₁ hr₁
  omega

/-- A copy takes a number of its dead-letter stream. -/
theorem advanced_copied {dlq origin : Bytes} (hr : (st.ensured env dlq origin).streamSeq.find? m.stream = some row) :
    ⟨m.stream, row.next + 1⟩ ∈ st.advanced ((st.ensured env dlq origin).appended m msgs e) := by
  refine mem_advanced.mpr ⟨mem_of_find? ((find?_takeSeq hr m.stream).trans (if_pos rfl)), fun r₀ hr₀ => ?_⟩
  have hr₀ : st.streamSeq.find? m.stream = some r₀ := hr₀
  have hkept : (st.ensured env dlq origin).streamSeq.find? m.stream = some r₀ := by
    refine (find?_insertIgnore st.streamSeq ⟨dlq, 1⟩ m.stream).trans ?_
    split
    · rename_i hm
      rw [← hm, hr₀]
      rfl
    · exact hr₀
  cases hr.symm.trans hkept
  exact Int.lt_succ _

/-- What the sink leaves alone, and the report it makes. -/
theorem Buried.frame (h : Buried env d st st') :
    st'.deliveries = st.deliveries ∧ st'.consumers = st.consumers ∧
      ∃ policy outcome, st'.carriers = st.carriers ++ [deadEvent env d policy outcome] := by
  cases h with
  | report policy outcome => exact ⟨rfl, rfl, policy, outcome, rfl⟩
  | copy => exact ⟨rfl, rfl, _, _, rfl⟩

theorem move_sets {d d' : DeliveryRow} (hd : st.deliveries.find? d.key = some d)
    (ht : st.deliveries.Sets d.key (some d') t) (h : Touched st d d') : Move st { st with deliveries := t } := by
  refine .touch st t fun k => ?_
  rw [ht k]
  split
  · rename_i hk
    rw [hk, hd]
    exact .some h
  · cases st.deliveries.find? k with
    | none => exact .none
    | some r => exact .some (.refl st r)

theorem move_unset {k : Bytes × Bytes × ℤ} (ht : st.deliveries.Sets k none t) (he : e ∈ st.carriers)
    (hn : e.name = .msgAck ∨ e.name = .msgDead) (hk : e.about = k) : Move st { st with deliveries := t } := by
  refine .drop st t fun k' => ?_
  by_cases h : k' = k
  · exact .inr ⟨by rw [h]; exact ht.same, e, he, hn, hk.trans h.symm⟩
  · exact .inl (ht.other h)

theorem pinned_of_mem {d : DeliveryRow} (h : d ∈ st.deliveries) : st.pinned d.stream d.seq = true :=
  List.any_eq_true.mpr ⟨d, h, by simp⟩

theorem evictable_iff {seqs : List ℤ} :
    st.evictable stream seqs m = true ↔ m.stream = stream ∧ m.seq ∈ seqs ∧ st.pinned stream m.seq = false := by
  simp [Store.evictable, and_assoc]

theorem moves_evicted (st : Store) (stream : Bytes) (seqs : List ℤ) (high nowMs : ℤ) :
    Moves st (st.evicted stream seqs high nowMs) := by
  have hprune : Move st { st with messages := st.messages.delete (st.evictable stream seqs) } := by
    refine .prune st _ (fun k m' hm' => ?_) fun k hk hn d hd hdk => ?_
    · rw [find?_delete] at hm'
      exact ⟨m', (Option.filter_eq_some_iff.mp hm').1, rfl⟩
    · obtain ⟨m, hm⟩ := Option.ne_none_iff_exists'.mp hk
      obtain ⟨rfl, -, hpin⟩ := evictable_iff.mp (hit_of_deleted hm hn)
      obtain ⟨hs, hq⟩ := Prod.mk.inj (hdk.trans (find?_key hm).symm)
      rw [← hs, ← hq, pinned_of_mem hd] at hpin
      cases hpin
  refine (ReflTransGen.single hprune).tail (.aside _ _ _ _ _ _ _ fun s r h => .inl fun hn => ?_)
  have hn : st.streamStats.find? s = none := hn
  split at h <;> simp [hn] at h

/-- Clearing dedup keys in place. -/
theorem move_redact (st : Store) (p : MessageRow → Bool) :
    Move st { st with messages := st.messages.update p (fun m => { m with dedupKey := none }) fun _ _ => rfl } := by
  refine .prune st _ (fun k m' h => ?_) fun k h hn => ?_
  · rw [find?_update] at h
    obtain ⟨m, hm, rfl⟩ := Option.map_eq_some_iff.mp h
    refine ⟨m, hm, ?_⟩
    split <;> rfl
  · rw [find?_update, Option.map_eq_none_iff] at hn
    exact absurd hn h

theorem Act.moves (h : Act env kind st st') : Moves st st' := by
  cases h with
  | log _ e _ hn => exact moves_logged st (allocation_of_plain hn)
  | lapse _ e _ hn => exact moves_logged st (by unfold Event.allocation; rw [hn])
  | limit _ limiter => exact .single (.aside st _ _ _ _ _ _ fun _ _ h => .inl (by simp [h]))
  | extend _ d visibleAt t hd hs ht =>
    have hn : d.state ≠ .ready := by simp [hs]
    exact .single (move_sets hd ht ⟨rfl, rfl, rfl, rfl, id, fun _ hr => absurd hr hn, fun _ hr => absurd hr hn⟩)
  | release _ d visibleAt reason t hd hs hb _ ht =>
    refine .single (move_sets hd ht ⟨rfl, rfl, rfl, rfl, fun _ => rfl, fun h0 hr => ?_, fun hi _ => hb hi⟩)
    rcases hs with hs | hs
    · rw [hr] at hs; cases hs
    · omega
  | ack _ d e t _ _ _ hn hk ht =>
    have hnote : Moves st (st.logged e) := moves_logged st (by unfold Event.allocation; rw [hn])
    exact hnote.tail (move_unset ht (List.mem_append_right _ (List.mem_singleton.mpr rfl)) (.inl hn) hk)
  | die _ st₁ ctx d t hb _ _ hk _ ht =>
    obtain ⟨hdel, -, policy, outcome, hcar⟩ := hb.frame
    rw [← hdel] at ht
    refine hb.moves.tail (move_unset ht (e := deadEvent env ctx policy outcome) (by rw [hcar]; simp) (.inr rfl) ?_)
    rw [deadEvent_about, hk]
  | store _ m row msgs e hr hq hi _ hn hk =>
    refine moves_appended hr hq hi ?_
    unfold Event.allocation
    rw [hn, ← hq]
    exact congrArg some hk
  | evict _ row seqs high => exact moves_evicted st _ _ _ _
  | tune _ streams => exact .single (.aside st _ _ _ _ _ _ fun _ _ h => .inl (by simp [h]))
  | redact _ p => exact .single (move_redact st p)
  | trim _ spec batch => exact moves_events st _

theorem Acts.moves (h : Acts env kind st st') : Moves st st' := by
  induction h with
  | refl => exact .refl
  | tail _ ha ih => exact ih.trans ha.moves

end Messq

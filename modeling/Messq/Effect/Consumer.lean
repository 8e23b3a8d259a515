import Messq.Effect.Streams

/-! # What the consumer commands do

Creation, update, deletion, pause and seek of a consumer are `Confined` to its row and its delivery rows. Each
inversion lemma adds what happens on the pair itself. -/

namespace Messq

open Lib Table Relation

variable {actor name stream : Bytes} {pair : Bytes × Bytes} {cfg : ConsumerConfig} {r : ConsumerCreateResult}
  {p : ConsumerPatch} {env : Env} {start : StartPosition} {st st' st₁ : Store} {u : Unit} {next : ℤ} {c : ConsumerRow}
  {d : DeliveryRow} {m : MessageRow}

/-- There is a start record for the consumer. -/
def Store.started (st : Store) (pair : Bytes × Bytes) : Bool := (st.metaTable.find? (.cstart pair.1 pair.2)).isSome

theorem pair_of_cstart {k : Bytes × Bytes} (h : MetaKey.cstart k.1 k.2 = .cstart pair.1 pair.2) : k = pair :=
  Prod.ext (MetaKey.cstart.inj h).1 (MetaKey.cstart.inj h).2

/-- Nothing changes but the row of one consumer and its delivery rows. -/
structure Confined (st : Store) (pair : Bytes × Bytes) (st' : Store) : Prop where
  consumers : ∀ k, k ≠ pair → st'.consumers.find? k = st.consumers.find? k
  deliveries : ∀ k, (k.1, k.2.1) ≠ pair → st'.deliveries.find? k = st.deliveries.find? k
  streams : st'.streams = st.streams
  messages : st'.messages = st.messages
  seq : st'.streamSeq = st.streamSeq
  stats : st'.streamStats = st.streamStats
  reap : ∀ n, st'.metaTable.find? (.reap n) = st.metaTable.find? (.reap n)
  hwm : ∀ n, st'.metaTable.find? (.seqHwm n) = st.metaTable.find? (.seqHwm n)
  starts : ∀ k, k ≠ pair → st'.metaTable.find? (.cstart k.1 k.2) = st.metaTable.find? (.cstart k.1 k.2)
  /-- The start record is written and deleted with the consumer's row. -/
  start : st'.started pair = (st'.consumers.find? pair).isSome ∨
    st'.started pair = st.started pair ∧ (st'.consumers.find? pair).isSome = (st.consumers.find? pair).isSome
  reports : Reports st st'

theorem Confined.refl (st : Store) (pair : Bytes × Bytes) : Confined st pair st :=
  ⟨fun _ _ => rfl, fun _ _ => rfl, rfl, rfl, rfl, rfl, fun _ => rfl, fun _ => rfl, fun _ _ => rfl,
    .inr ⟨rfl, rfl⟩, .refl st⟩

/-- The audit row and the carrier do not matter. -/
theorem Confined.committed {e : Event} (h : Confined st pair st₁) (he : e.allocation = none)
    (hc : commitEvent e st₁ = .ok (u, st')) : Confined st pair st' := by
  obtain rfl := commitEvent_run.mp hc
  refine { h with reports := fun e' he' => ?_ }
  rcases List.mem_append.mp he' with he' | he'
  · exact h.reports e' he'
  · obtain rfl := List.mem_singleton.mp he'
    exact .inr he

/-- An update of the consumer's row. -/
theorem confined_update (st : Store) {f : ConsumerRow → ConsumerRow} {hf} :
    Confined st pair { st with consumers := st.consumers.update (fun c => c.key == pair) f hf } := by
  refine { Confined.refl st pair with consumers := fun k hk => ?_, start := .inr ⟨rfl, ?_⟩ }
  · refine (find?_update_key st.consumers hf (P := fun k => k = pair) (fun _ => Bool.beq_eq_decide_eq _ _) k).trans ?_
    exact if_neg hk
  · simp only [find?_update, Option.isSome_map]

theorem find?_update_pair (f : ConsumerRow → ConsumerRow) (hf) :
    (st.consumers.update (fun c => c.key == pair) f hf).find? pair = (st.consumers.find? pair).map f :=
  (find?_update_key st.consumers hf (P := fun k => k = pair) (fun _ => Bool.beq_eq_decide_eq _ _) pair).trans
    (if_pos rfl)

theorem find?_setConfig (st : Store) (pair : Bytes × Bytes) (cfg : ConsumerConfig) (k : Bytes × Bytes) :
    (st.consumers.update (fun c => c.key == pair) (fun c => c.withConfig cfg) fun _ _ => rfl).find? k =
      if k = pair then (st.consumers.find? k).map (·.withConfig cfg) else st.consumers.find? k :=
  find?_update_key st.consumers _ (P := fun k => k = pair) (fun _ => Bool.beq_eq_decide_eq _ _) k

theorem find?_setCursor {cursor : ℤ} (hc : st.consumers.find? pair = some c) :
    (st.consumers.update (fun c => c.key == pair) (fun c => { c with cursorSeq := cursor }) fun _ _ => rfl).find? pair =
      some { c with cursorSeq := cursor } := by
  rw [find?_update_pair, hc]
  rfl

/-- A delete of the consumer's delivery rows. -/
theorem find?_delete_pair (st : Store) (stream name : Bytes) (k : Bytes × Bytes × ℤ) :
    (st.deliveries.delete fun d => d.stream == stream && d.consumer == name).find? k =
      if (k.1, k.2.1) = (stream, name) then none else st.deliveries.find? k := by
  refine find?_delete_key st.deliveries (P := fun k => (k.1, k.2.1) = (stream, name)) (fun d => ?_) k
  simp only [Prod.mk.injEq, Bool.decide_and, Bool.beq_eq_decide_eq]

/-! ## Start positions -/

theorem streamBounds_run {p : ℤ × ℤ} (h : streamBounds stream st = .ok (p, st')) :
    st = st' ∧ ∃ row, st.streamSeq.find? stream = some row ∧ p = ((st.firstSeq stream).getD row.next, row.next) := by
  simp only [streamBounds, run_get_bind] at h
  cases hr : st.streamSeq.find? stream with
  | none => simp only [hr, refuse_run] at h
  | some row =>
    simp only [hr, run_pure] at h
    exact ⟨h.2, row, rfl, h.1.symm⟩

/-- The messages of a stream lie between 1 and its head. -/
def Store.Bounded (st : Store) (stream : Bytes) (next : ℤ) : Prop :=
  1 ≤ next ∧ ∀ q m, st.messages.find? (stream, q) = some m → 1 ≤ q ∧ q < next

theorem Store.Bounded.mem (h : st.Bounded stream next) (hm : m ∈ st.messagesOf stream) : 1 ≤ m.seq ∧ m.seq < next := by
  obtain ⟨hm', rfl⟩ := mem_messagesOf.mp hm
  exact h.2 m.seq m (find?_of_mem hm')

/-- Where the stored messages of a stream begin: the head when there are none. -/
def Store.floor (st : Store) (stream : Bytes) (next : ℤ) : ℤ := (st.firstSeq stream).getD next

theorem Store.Bounded.floor_le (hm : m ∈ st.messagesOf stream) : st.floor stream next ≤ m.seq := by
  have hseq : m.seq ∈ (st.messagesOf stream).map MessageRow.seq := List.mem_map_of_mem hm
  unfold Store.floor Store.firstSeq
  cases hf : ((st.messagesOf stream).map MessageRow.seq).min? with
  | none => rw [List.min?_eq_none_iff] at hf; rw [hf] at hseq; cases hseq
  | some q => exact (List.min?_eq_some_iff.mp hf).2 _ hseq

theorem Store.Bounded.floor (h : st.Bounded stream next) : 1 ≤ st.floor stream next ∧ st.floor stream next ≤ next := by
  unfold Store.floor
  cases hf : st.firstSeq stream with
  | none => exact ⟨h.1, le_rfl⟩
  | some q =>
    obtain ⟨m, hm, rfl⟩ := List.mem_map.mp (List.min?_mem hf)
    have := h.mem hm
    exact ⟨this.1, this.2.le⟩

theorem Store.Bounded.resolveTimeStart (h : st.Bounded stream next) (t : ℤ) :
    st.floor stream next ≤ (st.resolveTimeStart stream t next).1 ∧ (st.resolveTimeStart stream t next).1 ≤ next := by
  unfold Store.resolveTimeStart
  cases hs : st.messagesSince stream t with
  | nil => exact ⟨h.floor.2, le_rfl⟩
  | cons m ms =>
    have hm : m ∈ st.messagesSince stream t := hs ▸ List.mem_cons_self
    rw [Store.messagesSince, List.mem_insertionSort] at hm
    have hm := List.mem_of_mem_filter hm
    exact ⟨Store.Bounded.floor_le hm, (h.mem hm).2.le⟩

/-- What a resolved position is: between the first stored message and the head, and the head for `new`. -/
structure Resolved (st : Store) (stream : Bytes) (start : StartPosition) (cursor : ℤ) (row : SeqRow) : Prop where
  head : st.streamSeq.find? stream = some row
  new : start = .new → cursor = row.next
  range : st.Bounded stream row.next → st.floor stream row.next ≤ cursor ∧ cursor ≤ row.next

theorem resolveStartPosition_run {p : ℤ × Bool} (h : resolveStartPosition env stream start st = .ok (p, st')) :
    st = st' ∧ ∃ row, Resolved st stream start p.1 row := by
  simp only [resolveStartPosition, run_bind, run_get] at h
  obtain ⟨_, _, h₁, _, _, ⟨rfl, rfl⟩, h⟩ := h
  obtain ⟨rfl, row, hrow, rfl⟩ := streamBounds_run h₁
  cases start with
  | first =>
    obtain ⟨rfl, rfl⟩ := run_pure.mp h
    exact ⟨rfl, row, hrow, by simp, fun hb => ⟨le_rfl, hb.floor.2⟩⟩
  | new =>
    obtain ⟨rfl, rfl⟩ := run_pure.mp h
    exact ⟨rfl, row, hrow, fun _ => rfl, fun hb => ⟨hb.floor.2, le_rfl⟩⟩
  | seq n =>
    obtain ⟨rfl, rfl⟩ := run_pure.mp h
    refine ⟨rfl, row, hrow, by simp, fun hb => ?_⟩
    have hf := hb.floor.2
    show st.floor stream row.next ≤ clampCursor n (st.floor stream row.next) row.next ∧
      clampCursor n (st.floor stream row.next) row.next ≤ row.next
    unfold clampCursor
    split
    · exact ⟨le_rfl, hf⟩
    · split
      · exact ⟨hf, le_rfl⟩
      · omega
  | time t =>
    obtain ⟨rfl, rfl⟩ := run_pure.mp h
    exact ⟨rfl, row, hrow, by simp, fun hb => hb.resolveTimeStart t⟩
  | rel offset =>
    obtain ⟨rfl, rfl⟩ := run_pure.mp h
    exact ⟨rfl, row, hrow, by simp, fun hb => hb.resolveTimeStart _⟩

/-! ## Create -/

structure ConsumerInserted (st : Store) (stream : Bytes) (cfg : ConsumerConfig) (start : StartPosition) (st' : Store) :
    Prop where
  fresh : st.consumers.find? (stream, cfg.name) = none
  unmarked : st.metaTable.find? (.reap stream) = none
  row : ∃ head cursor createdAt, Resolved st stream start cursor head ∧
    st'.consumers.find? (stream, cfg.name) = some (newConsumer stream cfg cursor createdAt)
  deliveries : st'.deliveries = st.deliveries

/-- A create that changes the configuration of an existing consumer of that name. -/
structure ConsumerReplaced (st : Store) (stream : Bytes) (cfg : ConsumerConfig) (st' : Store) : Prop where
  row : st'.consumers.find? (stream, cfg.name) = (st.consumers.find? (stream, cfg.name)).map (·.withConfig cfg)
  deliveries : st'.deliveries = st.deliveries

/-- The row that decides between create and update: its name may differ in case. -/
def Store.namesake (st : Store) (stream name : Bytes) : Option ConsumerRow :=
  st.consumers.rows.find? fun c => c.stream == stream && eqNoCase c.name name

theorem checkStartImmutable_run :
    checkStartImmutable stream name start st = .ok (u, st') ↔
      (∀ m, st.metaTable.find? (.cstart stream name) = some m → m.v = .start start) ∧ st = st' := by
  simp only [checkStartImmutable, run_bind, run_get]
  constructor
  · rintro ⟨_, _, ⟨rfl, rfl⟩, h⟩
    cases hm : st.metaTable.find? (.cstart stream name) with
    | none =>
      simp only [hm, Option.map_none, run_pure] at h
      exact ⟨fun m hs => (by cases hs), h.2⟩
    | some m => cases hv : m.v with
      | int n => simp only [hm, Option.map_some, hv, refuse_run] at h
      | start recorded =>
        simp only [hm, Option.map_some, hv, run_ite] at h
        split at h
        · cases h
        · rename_i heq
          rw [not_not.mp heq] at hv
          exact ⟨fun m' hs => by rwa [← Option.some.inj hs], (run_pure.mp h).2⟩
  · rintro ⟨hrec, rfl⟩
    refine ⟨st, st, ⟨rfl, rfl⟩, ?_⟩
    cases hm : st.metaTable.find? (.cstart stream name) with
    | none => exact run_pure.mpr ⟨rfl, rfl⟩
    | some m =>
      simp only [Option.map_some, hrec m hm, ne_eq, not_true_eq_false, if_false]
      exact run_pure.mpr ⟨rfl, rfl⟩

theorem createConsumer_iff : createConsumer env stream cfg start actor st = .ok (r, st') ↔
      st.metaTable.find? (.reap stream) = none ∧ st.streams.find? stream ≠ none ∧
      match st.namesake stream cfg.name with
      | none => insertConsumer env stream cfg start actor st = .ok (r, st')
      | some existing => (∀ m, st.metaTable.find? (.cstart stream cfg.name) = some m → m.v = .start start) ∧
          if existing.config.diff cfg = [] then ⟨existing, false, false, false⟩ = r ∧ st = st'
          else replaceConsumer env stream existing cfg (existing.config.diff cfg) actor st = .ok (r, st') := by
  simp only [createConsumer, run_bind, run_get, run_ite]
  constructor
  · rintro ⟨_, _, h₁, _, _, ⟨rfl, rfl⟩, h⟩
    obtain ⟨hreap, rfl⟩ := refuseDuringReap_run h₁
    split at h
    · cases h
    · rename_i hstream
      refine ⟨hreap, fun hn => hstream (by rw [hn]; rfl), ?_⟩
      cases hex : st.namesake stream cfg.name with
      | none =>
        simp only [Store.namesake] at hex
        simpa only [hex] using h
      | some existing =>
        simp only [Store.namesake] at hex
        simp only [hex, run_bind, run_ite] at h
        obtain ⟨_, _, h₂, h⟩ := h
        obtain ⟨hstart, rfl⟩ := checkStartImmutable_run.mp h₂
        refine ⟨hstart, ?_⟩
        split_ifs at h ⊢
        · exact run_pure.mp h
        · exact h
  · rintro ⟨hreap, hstream, h⟩
    refine ⟨(), st, refuseDuringReap_ok hreap, st, st, ⟨rfl, rfl⟩, ?_⟩
    rw [if_neg (by simpa using hstream)]
    cases hex : st.namesake stream cfg.name with
    | none =>
      simp only [hex] at h
      simp only [Store.namesake] at hex
      simpa only [hex] using h
    | some existing =>
      simp only [hex] at h
      simp only [Store.namesake] at hex
      simp only [hex, run_bind, run_ite]
      refine ⟨(), st, checkStartImmutable_run.mpr ⟨h.1, rfl⟩, ?_⟩
      split_ifs at h ⊢
      · exact run_pure.mpr h.2
      · exact h.2

/-- The store with a new consumer in it. -/
theorem insertConsumer_run (h : insertConsumer env stream cfg start actor st = .ok (r, st')) :
    ∃ cursor clamped consumers metaTable, resolveStartPosition env stream start st = .ok ((cursor, clamped), st) ∧
      st.consumers.insert (newConsumer stream cfg cursor env.nowMs) = some consumers ∧
      st.metaTable.insert ⟨.cstart stream cfg.name, .start start⟩ = some metaTable ∧
      commitEvent {
        ts := env.nowMs, name := .consumerCreate, stream := nullStr stream, consumer := nullStr cfg.name,
        actor := nullStr actor, detail := .consumerCreate cursor start }
        { st with consumers := consumers, metaTable := metaTable } = .ok ((), st') ∧
      r = ⟨{ newConsumer stream cfg cursor env.nowMs with filters := cfg.filters }, true, false, clamped⟩ := by
  simp only [insertConsumer, run_bind, run_get, run_set, run_pure, require_run] at h
  obtain ⟨p, _, h₂, _, _, ⟨rfl, rfl⟩, consumers, _, ⟨hcons, rfl⟩, metaTable, _, ⟨hmeta, rfl⟩, _, _, rfl,
    _, _, h₃, rfl, rfl⟩ := h
  obtain ⟨rfl, -⟩ := resolveStartPosition_run h₂
  exact ⟨p.1, p.2, consumers, metaTable, h₂, hcons, hmeta, h₃, rfl⟩

theorem replaceConsumer_run {existing : ConsumerRow} {diff : List Field}
    (h : replaceConsumer env stream existing cfg diff actor st = .ok (r, st')) :
    validateConsumerConfig { cfg with paused := existing.paused } env.opts.consumerLimits = .ok () ∧
      commitEvent {
        ts := env.nowMs, name := .consumerUpdate, stream := nullStr stream, consumer := nullStr cfg.name,
        actor := nullStr actor, detail := .fields diff }
        { st with
          consumers := st.consumers.update (fun c => c.key == (stream, cfg.name)) (fun c => c.withConfig cfg)
            fun _ _ => rfl }
        = .ok ((), st') ∧
      r = ⟨{ existing.withConfig cfg with filters := cfg.filters }, false, true, false⟩ := by
  simp only [replaceConsumer, setConsumerConfig, run_bind, check_run, run_modify, run_pure] at h
  obtain ⟨_, _, ⟨-, rfl⟩, _, _, ⟨hval, rfl⟩, _, _, rfl, _, _, h₃, rfl, rfl⟩ := h
  exact ⟨hval, h₃, rfl⟩

theorem createConsumer_run (h : createConsumer env stream cfg start actor st = .ok (r, st')) :
    Confined st (stream, cfg.name) st' ∧
      (st' = st ∨ ConsumerInserted st stream cfg start st' ∨ ConsumerReplaced st stream cfg st') := by
  obtain ⟨hreap, -, h⟩ := createConsumer_iff.mp h
  cases hex : st.namesake stream cfg.name with
  | none =>
    simp only [hex] at h
    obtain ⟨cursor, clamped, consumers, metaTable, h₂, hcons, hmeta, h₃, -⟩ := insertConsumer_run h
    obtain ⟨-, head, hres⟩ := resolveStartPosition_run h₂
    have hconf : Confined st (stream, cfg.name) { st with consumers := consumers, metaTable := metaTable } :=
      { Confined.refl st (stream, cfg.name) with
        consumers := fun k hk => (find?_insert hcons k).trans (if_neg hk)
        reap := fun n => (find?_insert hmeta _).trans (if_neg (by simp))
        hwm := fun n => (find?_insert hmeta _).trans (if_neg (by simp))
        starts := fun k hk => (find?_insert hmeta _).trans (if_neg fun he => hk (pair_of_cstart he))
        start := .inl (by simp [Store.started, find?_insert hmeta, find?_insert hcons, ConsumerRow.key, newConsumer]) }
    refine ⟨hconf.committed rfl h₃, .inr (.inl ?_)⟩
    obtain rfl := commitEvent_run.mp h₃
    refine ⟨find?_of_insert hcons, hreap, ⟨head, cursor, env.nowMs, hres, ?_⟩, rfl⟩
    exact (find?_insert hcons _).trans (if_pos rfl)
  | some existing =>
    simp only [hex] at h
    obtain ⟨-, h⟩ := h
    split at h
    · obtain ⟨-, rfl⟩ := h
      exact ⟨.refl st _, .inl rfl⟩
    · obtain ⟨-, h₃, -⟩ := replaceConsumer_run h
      refine ⟨(confined_update _).committed rfl h₃, .inr (.inr ?_)⟩
      obtain rfl := commitEvent_run.mp h₃
      exact ⟨find?_update_pair (·.withConfig cfg) fun _ _ => rfl, rfl⟩

/-! ## Delete, pause, seek -/

theorem deleteConsumer_run {r : ConsumerDeleteResult} (h : deleteConsumer env stream name actor st = .ok (r, st')) :
    Confined st (stream, name) st' ∧
      st'.consumers.find? (stream, name) = none ∧ ∀ q, st'.deliveries.find? (stream, name, q) = none := by
  simp only [deleteConsumer, run_get_bind] at h
  cases hc : st.consumers.find? (stream, name) with
  | none => simp only [hc, refuse_run] at h
  | some c =>
    simp only [hc, run_bind, run_set_bind, run_pure] at h
    obtain ⟨_, _, h₁, -, rfl⟩ := h
    have hcons : ∀ k, (st.consumers.delete fun c => c.key == (stream, name)).find? k =
        if k = (stream, name) then none else st.consumers.find? k :=
      find?_delete_key st.consumers fun _ => Bool.beq_eq_decide_eq _ _
    have hmeta : ∀ k, (st.metaTable.delete fun r => r.k == MetaKey.cstart stream name).find? k =
        if k = .cstart stream name then none else st.metaTable.find? k :=
      find?_delete_key st.metaTable fun _ => Bool.beq_eq_decide_eq _ _
    have hconf : Confined st (stream, name) { st with
        deliveries := st.deliveries.delete fun d => d.stream == stream && d.consumer == name
        consumers := st.consumers.delete fun c => c.key == (stream, name)
        metaTable := st.metaTable.delete fun r => r.k == MetaKey.cstart stream name
        flow := st.flow.delete fun r => r.key == (stream, name) } :=
      { Confined.refl st (stream, name) with
        consumers := fun k hk => (hcons k).trans (if_neg hk)
        deliveries := fun k hk => (find?_delete_pair st stream name k).trans (if_neg hk)
        reap := fun n => (hmeta _).trans (if_neg (by simp))
        hwm := fun n => (hmeta _).trans (if_neg (by simp))
        starts := fun k hk => (hmeta _).trans (if_neg fun he => hk (pair_of_cstart he))
        start := .inl (by rw [hcons, if_pos rfl, Store.started, hmeta, if_pos rfl]; rfl) }
    refine ⟨hconf.committed rfl h₁, ?_⟩
    obtain rfl := commitEvent_run.mp h₁
    exact ⟨(hcons _).trans (if_pos rfl), fun q => (find?_delete_pair st stream name _).trans (if_pos rfl)⟩

theorem setPaused_run {paused : Bool} (h : setPaused env stream name paused actor st = .ok (u, st')) :
    Confined st (stream, name) st' ∧
      st'.deliveries = st.deliveries ∧ (st'.consumers.find? (stream, name) = st.consumers.find? (stream, name) ∨
      st'.consumers.find? (stream, name) = (st.consumers.find? (stream, name)).map fun c =>
        { c with paused := paused }) := by
  simp only [setPaused, run_get_bind] at h
  cases hc : st.consumers.find? (stream, name) with
  | none => simp only [hc, refuse_run] at h
  | some c =>
    simp only [hc, run_ite] at h
    split at h
    · obtain ⟨-, rfl⟩ := run_pure.mp h
      exact ⟨.refl st _, rfl, .inl hc⟩
    · rw [run_set_bind] at h
      refine ⟨(confined_update _).committed rfl h, ?_⟩
      obtain rfl := commitEvent_run.mp h
      exact ⟨rfl, .inr (by rw [← hc]; exact find?_update_pair (fun c => { c with paused := paused }) fun _ _ => rfl)⟩

/-- A seek on the pair: everything pending is dropped and the generation grows. -/
structure Sought (st : Store) (stream name : Bytes) (st' : Store) : Prop where
  row : ∃ c head dest cursor, st.consumers.find? (stream, name) = some c ∧ Resolved st stream dest cursor head ∧
    st'.consumers.find? (stream, name) = some { c with cursorSeq := cursor, generation := c.generation + 1 }
  deliveries : ∀ q, st'.deliveries.find? (stream, name, q) = none

theorem seek_run {consumer : Bytes} {dest : StartPosition} {dryRun : Bool} {r : SeekResult}
    (h : seek env stream consumer dest dryRun actor st = .ok (r, st')) :
    Confined st (stream, consumer) st' ∧ (dryRun = true ∧ st' = st ∨ dryRun = false ∧
      Sought st stream consumer st') := by
  simp only [seek, run_get_bind] at h
  cases hc : st.consumers.find? (stream, consumer) with
  | none => simp only [hc, refuse_run] at h
  | some c =>
    simp only [hc, run_bind] at h
    obtain ⟨p, _, h₁, h⟩ := h
    obtain ⟨rfl, head, hres⟩ := resolveStartPosition_run h₁
    rw [run_ite] at h
    split at h
    · cases h
    simp only [run_bind] at h
    obtain ⟨b, _, h₂, h⟩ := h
    obtain ⟨rfl, -⟩ := streamBounds_run h₂
    cases dryRun with
    | true =>
      obtain ⟨-, rfl⟩ := run_pure.mp h
      exact ⟨.refl st _, .inl ⟨rfl, rfl⟩⟩
    | false =>
      simp only [Bool.false_eq_true, if_false, run_bind, run_set_bind, run_pure] at h
      obtain ⟨_, _, h₃, -, rfl⟩ := h
      have hconf : Confined st (stream, consumer) { st with
          deliveries := st.deliveries.delete fun d => d.stream == stream && d.consumer == consumer
          consumers := st.consumers.update (fun c => c.key == (stream, consumer))
            (fun c => { c with cursorSeq := p.1, generation := c.generation + 1 }) fun _ _ => rfl } :=
        { confined_update st with
          deliveries := fun k hk => (find?_delete_pair st stream consumer k).trans (if_neg hk) }
      refine ⟨hconf.committed rfl h₃, .inr ⟨rfl, ?_⟩⟩
      obtain rfl := commitEvent_run.mp h₃
      refine ⟨⟨c, head, dest, p.1, hc, hres, ?_⟩, fun q => (find?_delete_pair st stream consumer _).trans (if_pos rfl)⟩
      exact (find?_update_pair (fun c => { c with cursorSeq := p.1, generation := c.generation + 1 })
        fun _ _ => rfl).trans
        (by rw [hc]; rfl)

/-! ## Update -/

/-- A shrink on the pair: the never claimed rows from `low` on are dropped and the cursor goes back to `low`. -/
structure Shrunk (st : Store) (stream name : Bytes) (low : ℤ) (st' : Store) : Prop where
  row : st'.consumers.find? (stream, name) = (st.consumers.find? (stream, name)).map fun c =>
    { c with cursorSeq := low }
  target : ∃ d, st.deliveries.find? (stream, name, low) = some d ∧ d.attempts = 0
  kept : ∀ q d, st'.deliveries.find? (stream, name, q) = some d →
    st.deliveries.find? (stream, name, q) = some d ∧ (d.attempts = 0 → d.state = .ready → q < low)
  dropped : ∀ q d, st.deliveries.find? (stream, name, q) = some d → st'.deliveries.find? (stream, name, q) = none →
    d.attempts = 0 ∧ low ≤ q

theorem mem_pendingOf : d ∈ st.pendingOf stream name ↔ d ∈ st.deliveries ∧ d.stream = stream ∧ d.consumer = name := by
  simp [Store.pendingOf]

theorem mem_droppableOf : d ∈ st.droppableOf stream name ↔
    (d ∈ st.deliveries ∧ d.stream = stream ∧ d.consumer = name) ∧ d.state = .ready ∧ d.attempts = 0 := by
  simp [Store.droppableOf, mem_pendingOf]

/-- A suffix of the droppable rows leaves: the rows that stay are below its lowest one. -/
theorem shrunk_of_suffix {lowest : DeliveryRow} {others kept : List DeliveryRow}
    (hl : st.droppableOf stream name = kept ++ lowest :: others) :
    Shrunk st stream name lowest.seq { st with
      deliveries := st.deliveries.delete fun d => d.key ∈ (lowest :: others).map DeliveryRow.key
      consumers := st.consumers.update (fun c => c.key == (stream, name)) (fun c => { c with cursorSeq := lowest.seq })
        fun _ _ => rfl } := by
  have hsort : (kept ++ lowest :: others).Pairwise fun a b => a.seq ≤ b.seq :=
    hl ▸ pairwise_orderBy DeliveryRow.seq _
  obtain ⟨-, htail, hcross⟩ := List.pairwise_append.mp hsort
  have hmem : ∀ d ∈ kept ++ lowest :: others, (d ∈ st.deliveries ∧ d.stream = stream ∧ d.consumer = name) ∧
      d.state = .ready ∧ d.attempts = 0 := fun d hd => mem_droppableOf.mp (hl ▸ hd)
  have hfind : ∀ k, (st.deliveries.delete fun d => d.key ∈ (lowest :: others).map DeliveryRow.key).find? k =
      if k ∈ (lowest :: others).map DeliveryRow.key then none else st.deliveries.find? k :=
    find?_delete_key st.deliveries fun _ => rfl
  obtain ⟨⟨hlow, hls, hln⟩, -, hla⟩ := hmem lowest (by simp)
  have hlk : lowest.key = (stream, name, lowest.seq) := by rw [DeliveryRow.key, hls, hln]
  refine ⟨find?_update_pair (fun c => { c with cursorSeq := lowest.seq }) fun _ _ => rfl,
    ⟨lowest, hlk ▸ find?_of_mem hlow, hla⟩, fun q d hd => ?_, fun q d hd hn => ?_⟩
  · have hd := (hfind _).symm.trans hd
    split at hd
    · cases hd
    rename_i hout
    refine ⟨hd, fun h0 hr => ?_⟩
    have hk : d.key = (stream, name, q) := find?_key hd
    simp only [DeliveryRow.key, Prod.mk.injEq] at hk
    obtain ⟨hs, hn, rfl⟩ := hk
    have hin : d ∈ kept ++ lowest :: others :=
      hl ▸ mem_droppableOf.mpr ⟨⟨mem_of_find? hd, hs, hn⟩, hr, h0⟩
    have hne : d.seq ≠ lowest.seq := fun he => hout (List.mem_map.mpr ⟨lowest, by simp, by rw [hlk, he]⟩)
    rcases List.mem_append.mp hin with hin | hin
    · exact lt_of_le_of_ne (hcross d hin lowest (by simp)) hne
    · exact absurd (List.mem_map.mpr ⟨d, hin, by rw [DeliveryRow.key, hs, hn]⟩) hout
  · have hn := (hfind _).symm.trans hn
    split at hn
    · rename_i hin
      obtain ⟨d', hd', hk'⟩ := List.mem_map.mp hin
      have hm := hmem d' (by simp [List.mem_cons.mp hd'])
      obtain rfl : d = d' := eq_of_key (mem_of_find? hd) hm.1.1 ((find?_key hd).trans hk'.symm)
      refine ⟨hm.2.2, ?_⟩
      simp only [DeliveryRow.key, Prod.mk.injEq] at hk'
      obtain ⟨-, -, rfl⟩ := hk'
      rcases List.mem_cons.mp hd' with rfl | hd'
      · exact le_rfl
      · exact (List.pairwise_cons.mp htail).1 d hd'
    · rw [hd] at hn; cases hn

theorem shrinkDeliveries_run {bound n : ℤ} (h : shrinkDeliveries stream name bound st = .ok (n, st')) :
    Confined st (stream, name) st' ∧ (st' = st ∨ ∃ low, Shrunk st stream name low st') ∧
    st'.carriers = st.carriers := by
  simp only [shrinkDeliveries, run_get_bind] at h
  rw [run_ite] at h
  split at h
  · obtain ⟨-, rfl⟩ := run_pure.mp h
    exact ⟨.refl st _, .inl rfl, rfl⟩
  generalize hdrop : (st.droppableOf stream name).length - _ = i at h
  cases htail : (st.droppableOf stream name).drop i with
  | nil =>
    simp only [htail] at h
    obtain ⟨-, rfl⟩ := run_pure.mp h
    exact ⟨.refl st _, .inl rfl, rfl⟩
  | cons lowest others =>
    simp only [htail, setCursor, run_set_bind, run_modify_bind, run_pure] at h
    obtain ⟨_, _, rfl, -, rfl⟩ := h
    have hl : st.droppableOf stream name = (st.droppableOf stream name).take i ++ lowest :: others := by
      rw [← htail, List.take_append_drop]
    refine ⟨?_, .inr ⟨lowest.seq, shrunk_of_suffix hl⟩, rfl⟩
    refine { confined_update st with deliveries := fun k hk => ?_ }
    refine (find?_delete_key st.deliveries (P := fun k => k ∈ (lowest :: others).map DeliveryRow.key)
      (fun _ => rfl) k).trans (if_neg fun hin => hk ?_)
    obtain ⟨d, hd, rfl⟩ := List.mem_map.mp hin
    have hd : d ∈ st.droppableOf stream name := hl ▸ List.mem_append_right _ hd
    obtain ⟨⟨-, hs, hn⟩, -⟩ := mem_droppableOf.mp hd
    rw [← hs, ← hn]

/-- An update on the pair: perhaps a shrink, then the new configuration. -/
def ConsumerUpdated (st : Store) (stream name : Bytes) (next : ConsumerConfig) (st' : Store) : Prop :=
  ∃ st₁, (st₁ = st ∨ ∃ low, Shrunk st stream name low st₁) ∧
    st'.consumers.find? (stream, name) = (st₁.consumers.find? (stream, name)).map (·.withConfig next) ∧
    ∀ q, st'.deliveries.find? (stream, name, q) = st₁.deliveries.find? (stream, name, q)

theorem Confined.trans {st₂ : Store} (h₁ : Confined st pair st₁) (h₂ : Confined st₁ pair st₂) :
    Confined st pair st₂ where
  consumers k hk := (h₂.consumers k hk).trans (h₁.consumers k hk)
  deliveries k hk := (h₂.deliveries k hk).trans (h₁.deliveries k hk)
  messages := h₂.messages.trans h₁.messages
  seq := h₂.seq.trans h₁.seq
  streams := h₂.streams.trans h₁.streams
  stats := h₂.stats.trans h₁.stats
  reap n := (h₂.reap n).trans (h₁.reap n)
  hwm n := (h₂.hwm n).trans (h₁.hwm n)
  starts k hk := (h₂.starts k hk).trans (h₁.starts k hk)
  start := by
    rcases h₂.start with h | ⟨hm, hc⟩
    · exact .inl h
    · rw [hm, hc]
      exact h₁.start
  reports e he := (h₂.reports e he).elim (h₁.reports e) .inr

/-- The store an update writes its configuration to, after the shrink if there is one. -/
def ShrunkFor (st : Store) (stream name : Bytes) (p : ConsumerPatch) (c : ConsumerRow) (st₁ : Store) : Prop :=
  match p.shrinkTo c with
  | none => st₁ = st
  | some bound => ∃ n, shrinkDeliveries stream name bound st = .ok (n, st₁)

theorem updateConsumer_cases {r : ConsumerRow} (h : updateConsumer env stream name p actor st = .ok (r, st')) :
    ∃ c, st.consumers.find? (stream, name) = some c ∧ (p.fields = [] ∧ st' = st ∨
      p.fields ≠ [] ∧ (validateDeadPolicyForStream stream (p.apply c.config).deadPolicy = .ok () ∧
        validateConsumerConfig (p.apply c.config) env.opts.consumerLimits = .ok ()) ∧
      ∃ st₁ detail, ShrunkFor st stream name p c st₁ ∧
        commitEvent {
          ts := env.nowMs, name := .consumerUpdate, stream := nullStr stream, consumer := nullStr name,
          actor := nullStr actor, detail := detail }
          { st₁ with
            consumers := st₁.consumers.update (fun c => c.key == (stream, name))
              (fun c₁ => c₁.withConfig (p.apply c.config)) fun _ _ => rfl } = .ok ((), st')) := by
  simp only [updateConsumer, run_get_bind] at h
  cases hc : st.consumers.find? (stream, name) with
  | none => simp only [hc, refuse_run] at h
  | some c =>
    refine ⟨c, rfl, ?_⟩
    simp only [hc, run_ite] at h
    split at h
    · rename_i hf
      obtain ⟨-, rfl⟩ := run_pure.mp h
      exact .inl ⟨hf, rfl⟩
    rename_i hf
    simp only [run_bind, check_run] at h
    obtain ⟨_, _, ⟨hpol, rfl⟩, _, _, ⟨hval, rfl⟩, h⟩ := h
    refine .inr ⟨hf, ⟨hpol, hval⟩, ?_⟩
    unfold ShrunkFor
    cases hsh : p.shrinkTo c with
    | none =>
      simp only [hsh] at h
      obtain ⟨_, _, h₁, h⟩ := run_bind.mp h
      obtain ⟨rfl, rfl⟩ := run_pure.mp h₁
      simp only [setConsumerConfig, run_bind, run_modify_bind, run_pure] at h
      obtain ⟨_, _, h₂, -, rfl⟩ := h
      exact ⟨st, _, rfl, h₂⟩
    | some bound =>
      simp only [hsh] at h
      obtain ⟨n, st₁, h₁, h⟩ := run_bind.mp h
      obtain ⟨_, _, h₂, h⟩ := run_bind.mp h
      obtain ⟨rfl, rfl⟩ := run_pure.mp h₂
      simp only [setConsumerConfig, run_bind, run_modify_bind, run_pure] at h
      obtain ⟨_, _, h₃, -, rfl⟩ := h
      exact ⟨st₁, _, ⟨n, h₁⟩, h₃⟩

theorem ShrunkFor.run (h : ShrunkFor st stream name p c st₁) :
    Confined st (stream, name) st₁ ∧ (st₁ = st ∨ ∃ low, Shrunk st stream name low st₁) ∧
    st₁.carriers = st.carriers := by
  unfold ShrunkFor at h
  split at h
  · subst h
    exact ⟨.refl st₁ _, .inl rfl, rfl⟩
  · obtain ⟨n, h⟩ := h
    exact shrinkDeliveries_run h

theorem updateConsumer_run {r : ConsumerRow} (h : updateConsumer env stream name p actor st = .ok (r, st')) :
    Confined st (stream, name) st' ∧ (st' = st ∨ ∃ c, st.consumers.find? (stream, name) = some c ∧
      (validateDeadPolicyForStream stream (p.apply c.config).deadPolicy = .ok () ∧
        validateConsumerConfig (p.apply c.config) env.opts.consumerLimits = .ok ()) ∧
      ConsumerUpdated st stream name (p.apply c.config) st') := by
  obtain ⟨c, hc, ⟨-, rfl⟩ | ⟨-, hval, st₁, detail, hsh, h₁⟩⟩ := updateConsumer_cases h
  · exact ⟨.refl st' _, .inl rfl⟩
  · obtain ⟨hconf, hst₁, -⟩ := hsh.run
    refine ⟨hconf.trans ((confined_update _).committed rfl h₁), .inr ⟨c, hc, hval, st₁, hst₁, ?_⟩⟩
    obtain rfl := commitEvent_run.mp h₁
    exact ⟨find?_update_pair (·.withConfig (p.apply c.config)) fun _ _ => rfl, fun _ => rfl⟩

end Messq

import Messq.Broker

/-! # What a background command does, statement by statement

Publishing, settling, sweeping, retiring, retention and the other janitor commands leave the consumers and the
`meta` table alone. `Move` lists the statements such a command is made of, each with the guard under which the
source runs it, and `Moves` is a run of them; every command's lemma says that it stays within `Moves`. What a
background command preserves is then proved once for each kind of move. -/

namespace Messq

open Lib Table Relation

variable {s : Bytes} {st st' : Store} {t : Table DeliveryRow.key} {q : ℤ}

/-! ## What the events say -/

/-- The stream and sequence number an event reports as allocated. -/
def Event.allocation (e : Event) : Option (Bytes × ℤ) :=
  match e.name, e.detail with
  | .msgPublish, _ => some (e.stream.getD [], e.seq.getD 0)
  | .msgDead, .dead _ _ _ _ (.written dlq seq _ _ _) _ _ _ => some (dlq, seq)
  | _, _ => none

/-- The event reports the end of a delivery: an acknowledgement or a death. -/
def Event.Ends (e : Event) (k : Bytes × Bytes × ℤ) : Prop :=
  (e.name = .msgAck ∨ e.name = .msgDead) ∧ (e.stream.getD [], e.consumer.getD [], e.seq.getD 0) = k

theorem nullStr_getD (s : Bytes) : (nullStr s).getD [] = s := by
  unfold nullStr
  split
  · rename_i h; exact h.symm
  · rfl

theorem nullI64_getD (n : ℤ) : (nullI64 n).getD 0 = n := by
  unfold nullI64
  split
  · rename_i h; exact h.symm
  · rfl

/-! ## Moves -/

/-- A consumer's row is at its bound. -/
def ConsumerRow.AtBound (c : ConsumerRow) (attempts : ℤ) : Prop :=
  0 < toInt32 c.maxDeliver ∧ toInt32 c.maxDeliver ≤ attempts

/-- A row that stays: its fence columns are kept, a waiting row is not taken, a row that was never claimed is
left as it is, and a row at the bound is not released. -/
structure Touched (st : Store) (d d' : DeliveryRow) : Prop where
  key : d'.key = d.key
  subject : d'.subject = d.subject
  attempts : d'.attempts = d.attempts
  generation : d'.generation = d.generation
  ready : d.state = .ready → d'.state = .ready
  fresh : d.attempts = 0 → d.state = .ready → d' = d
  bounded : d.state = .inflight → d'.state = .ready → ∀ c, st.consumers.find? (d.stream, d.consumer) = some c →
    ¬ c.AtBound d.attempts

inductive Move : Store → Store → Prop
  /-- The tables and maps that only reports read; counters are kept for existing streams. -/
  | aside (st : Store) (streams stats events flow limiter) (minted : ℕ)
      (hs : ∀ s r, stats.find? s = some r → st.streamStats.find? s ≠ none ∨ st.streamSeq.find? s ≠ none) :
      Move st { st with
        streams := streams, streamStats := stats, events := events, flow := flow, limiter := limiter, minted := minted }
  /-- A carrier that reports no allocation. -/
  | note (st : Store) (e : Event) (he : e.allocation = none) : Move st { st with carriers := st.carriers ++ [e] }
  /-- Delivery rows change in place. -/
  | touch (st : Store) (t : Table DeliveryRow.key)
      (ht : ∀ k, Option.Rel (Touched st) (st.deliveries.find? k) (t.find? k)) : Move st { st with deliveries := t }
  /-- Delivery rows leave, each with an event that says so. -/
  | drop (st : Store) (t : Table DeliveryRow.key)
      (ht : ∀ k, t.find? k = st.deliveries.find? k ∨ t.find? k = none ∧ ∃ e ∈ st.carriers, e.Ends k) :
      Move st { st with deliveries := t }
  /-- A message is stored under the next sequence number of its stream. -/
  | store (st : Store) (row : SeqRow) (m : MessageRow) (seqs : Table SeqRow.stream) (msgs : Table MessageRow.key)
      (e : Event) (hr : st.streamSeq.find? m.stream = some row) (hm : m.seq = row.next)
      (hs : ∀ s, seqs.find? s = if s = m.stream then some ⟨m.stream, row.next + 1⟩ else st.streamSeq.find? s)
      (hi : st.messages.insert m = some msgs) (he : e.allocation = some (m.stream, row.next)) :
      Move st { st with streamSeq := seqs, messages := msgs, carriers := st.carriers ++ [e] }
  /-- The counter of a dead-letter stream starts at 1. -/
  | seed (st : Store) (c : ConsumerRow) (hc : c ∈ st.consumers) (hp : c.deadPolicy = .dlq)
      (hn : st.streamSeq.find? (dlqName c.stream) = none) :
      Move st { st with streamSeq := st.streamSeq.insertIgnore ⟨dlqName c.stream, 1⟩ }
  /-- Messages lose their dedup key, or leave when no delivery row names them. -/
  | prune (st : Store) (t : Table MessageRow.key)
      (hk : ∀ k m', t.find? k = some m' → ∃ m, st.messages.find? k = some m ∧ m'.subject = m.subject)
      (hp : ∀ k, st.messages.find? k ≠ none → t.find? k = none → ∀ d ∈ st.deliveries, (d.stream, d.seq) ≠ k) :
      Move st { st with messages := t }

/-- A run of moves. -/
abbrev Moves : Store → Store → Prop := ReflTransGen Move

theorem Touched.refl (st : Store) (d : DeliveryRow) : Touched st d d :=
  ⟨rfl, rfl, rfl, rfl, id, fun _ _ => rfl, fun h h' => by rw [h] at h'; cases h'⟩

theorem Touched.trans {d₁ d₂ d₃ : DeliveryRow} (hc : st'.consumers = st.consumers) (h₁ : Touched st d₁ d₂)
    (h₂ : Touched st' d₂ d₃) : Touched st d₁ d₃ where
  key := h₂.key.trans h₁.key
  subject := h₂.subject.trans h₁.subject
  attempts := h₂.attempts.trans h₁.attempts
  generation := h₂.generation.trans h₁.generation
  ready h := h₂.ready (h₁.ready h)
  fresh h0 hr := by
    rw [h₂.fresh (h₁.attempts.trans h0) (h₁.ready hr)]
    exact h₁.fresh h0 hr
  bounded hi hr c hcr := by
    cases hs : d₂.state with
    | ready => exact h₁.bounded hi hs c hcr
    | inflight =>
      rw [← h₁.attempts]
      have hk : (d₂.stream, d₂.consumer) = (d₁.stream, d₁.consumer) := by
        have := h₁.key
        simp only [DeliveryRow.key, Prod.mk.injEq] at this ⊢
        exact ⟨this.1, this.2.1⟩
      exact h₂.bounded hs hr c (by rw [hk, hc]; exact hcr)

/-! ## What moves keep -/

/-- The message was stored since: its number was allocated from the counter. -/
structure Appended (seqs seqs' : Table SeqRow.stream) (s : Bytes) (q : ℤ) : Prop where
  below : ∃ r', seqs'.find? s = some r' ∧ q < r'.next
  above : ∀ r, seqs.find? s = some r → r.next ≤ q
  pos : seqs.find? s = none → 1 ≤ q

/-- Everything the invariants need to know about a background command. -/
structure Background (st st' : Store) : Prop where
  consumers : st'.consumers = st.consumers
  metaTable : st'.metaTable = st.metaTable
  carriers : ∀ e ∈ st.carriers, e ∈ st'.carriers
  kept : ∀ k d', st'.deliveries.find? k = some d' → ∃ d, st.deliveries.find? k = some d ∧ Touched st d d'
  dropped : ∀ k, st.deliveries.find? k ≠ none → st'.deliveries.find? k = none → ∃ e ∈ st'.carriers, e.Ends k
  seq : ∀ s r, st.streamSeq.find? s = some r → ∃ r', st'.streamSeq.find? s = some r' ∧ r.next ≤ r'.next
  seeded : ∀ s r', st'.streamSeq.find? s = some r' → st.streamSeq.find? s = none → 1 ≤ r'.next
  stats : ∀ s, st'.streamStats.find? s ≠ none → st.streamStats.find? s ≠ none ∨ st'.streamSeq.find? s ≠ none
  stored : ∀ s q m', st'.messages.find? (s, q) = some m' →
    (∃ m, st.messages.find? (s, q) = some m ∧ m'.subject = m.subject) ∨ Appended st.streamSeq st'.streamSeq s q
  backed : ∀ d' ∈ st'.deliveries, st.messages.find? (d'.stream, d'.seq) ≠ none →
    st'.messages.find? (d'.stream, d'.seq) ≠ none

theorem Background.refl (st : Store) : Background st st where
  consumers := rfl
  metaTable := rfl
  carriers _ h := h
  kept _ d' h := ⟨d', h, .refl st d'⟩
  dropped _ h h' := absurd h' h
  seq _ r h := ⟨r, h, le_rfl⟩
  seeded _ r' h h' := by rw [h] at h'; cases h'
  stats _ h := .inl h
  stored _ _ m' h := .inl ⟨m', h, rfl⟩
  backed _ _ h := h

section Trans

variable {st₁ st₂ st₃ : Store}

theorem Appended.later (h₁ : Appended st₁.streamSeq st₂.streamSeq s q) (h₂ : Background st₂ st₃) :
    Appended st₁.streamSeq st₃.streamSeq s q := by
  obtain ⟨r₂, hr₂, hq⟩ := h₁.below
  obtain ⟨r₃, hr₃, hle⟩ := h₂.seq s r₂ hr₂
  exact ⟨⟨r₃, hr₃, by omega⟩, h₁.above, h₁.pos⟩

theorem Appended.earlier (h₁ : Background st₁ st₂) (h₂ : Appended st₂.streamSeq st₃.streamSeq s q) :
    Appended st₁.streamSeq st₃.streamSeq s q := by
  refine ⟨h₂.below, fun r₁ hr₁ => ?_, fun hn => ?_⟩
  · obtain ⟨r₂, hr₂, hle⟩ := h₁.seq s r₁ hr₁
    have := h₂.above r₂ hr₂
    omega
  · cases hr₂ : st₂.streamSeq.find? s with
    | none => exact h₂.pos hr₂
    | some r₂ =>
      have := h₁.seeded s r₂ hr₂ hn
      have := h₂.above r₂ hr₂
      omega

theorem Background.trans (h₁ : Background st₁ st₂) (h₂ : Background st₂ st₃) : Background st₁ st₃ where
  consumers := h₂.consumers.trans h₁.consumers
  metaTable := h₂.metaTable.trans h₁.metaTable
  carriers e he := h₂.carriers e (h₁.carriers e he)
  kept k d₃ hd₃ := by
    obtain ⟨d₂, hd₂, ht₂⟩ := h₂.kept k d₃ hd₃
    obtain ⟨d₁, hd₁, ht₁⟩ := h₁.kept k d₂ hd₂
    exact ⟨d₁, hd₁, ht₁.trans h₁.consumers ht₂⟩
  dropped k hk hn := by
    by_cases hk₂ : st₂.deliveries.find? k = none
    · obtain ⟨e, he, hend⟩ := h₁.dropped k hk hk₂
      exact ⟨e, h₂.carriers e he, hend⟩
    · exact h₂.dropped k hk₂ hn
  seq s r hr := by
    obtain ⟨r₂, hr₂, hle₂⟩ := h₁.seq s r hr
    obtain ⟨r₃, hr₃, hle₃⟩ := h₂.seq s r₂ hr₂
    exact ⟨r₃, hr₃, hle₂.trans hle₃⟩
  seeded s r₃ hr₃ hn := by
    cases hr₂ : st₂.streamSeq.find? s with
    | none => exact h₂.seeded s r₃ hr₃ hr₂
    | some r₂ =>
      obtain ⟨r, hr, hle⟩ := h₂.seq s r₂ hr₂
      rw [hr₃] at hr
      cases hr
      exact (h₁.seeded s r₂ hr₂ hn).trans hle
  stats s hs := by
    rcases h₂.stats s hs with hs | hs
    · refine (h₁.stats s hs).imp_right fun hq => ?_
      obtain ⟨r₂, hr₂⟩ := Option.ne_none_iff_exists'.mp hq
      obtain ⟨r₃, hr₃, -⟩ := h₂.seq s r₂ hr₂
      simp [hr₃]
    · exact .inr hs
  stored s q m₃ hm₃ := by
    rcases h₂.stored s q m₃ hm₃ with ⟨m₂, hm₂, hs₂⟩ | ha
    · rcases h₁.stored s q m₂ hm₂ with ⟨m₁, hm₁, hs₁⟩ | ha
      · exact .inl ⟨m₁, hm₁, hs₂.trans hs₁⟩
      · exact .inr (ha.later h₂)
    · exact .inr (.earlier h₁ ha)
  backed d hd hm := by
    obtain ⟨d₂, hd₂, ht⟩ := h₂.kept d.key d (find?_of_mem hd)
    have hk : (d₂.stream, d₂.seq) = (d.stream, d.seq) := by
      have := ht.key
      simp only [DeliveryRow.key, Prod.mk.injEq] at this ⊢
      exact ⟨this.1.symm, this.2.2.symm⟩
    refine h₂.backed d hd ?_
    rw [← hk]
    exact h₁.backed d₂ (mem_of_find? hd₂) (by rw [hk]; exact hm)

end Trans

/-- The kept rows of a table whose rows change in place. -/
theorem background_touch (ht : ∀ k, Option.Rel (Touched st) (st.deliveries.find? k) (t.find? k)) :
    Background st { st with deliveries := t } :=
  { Background.refl st with
    kept := fun k d' hd' => by
      have hk := ht k
      rw [show t.find? k = some d' from hd'] at hk
      generalize hd : st.deliveries.find? k = o at hk
      cases hk with
      | some htd => exact ⟨_, rfl, htd⟩
    dropped := fun k hk hn => by
      have hr := ht k
      rw [show t.find? k = none from hn] at hr
      generalize hd : st.deliveries.find? k = o at hr
      cases hr with
      | none => exact absurd hd hk
    backed := fun _ _ h => h }

theorem background_drop (ht : ∀ k, t.find? k = st.deliveries.find? k ∨ t.find? k = none ∧ ∃ e ∈ st.carriers, e.Ends k) :
    Background st { st with deliveries := t } :=
  { Background.refl st with
    kept := fun k d' hd' => by
      rcases ht k with he | ⟨hn, -⟩
      · exact ⟨d', he ▸ hd', .refl st d'⟩
      · exact absurd (hn.symm.trans hd') (by simp)
    dropped := fun k hk hn => by
      rcases ht k with he | ⟨-, he⟩
      · exact absurd (he.symm.trans hn) hk
      · exact he
    backed := fun _ _ h => h }

theorem background_store {row : SeqRow} {m : MessageRow} {seqs : Table SeqRow.stream} {msgs : Table MessageRow.key}
    {es : List Event} (hr : st.streamSeq.find? m.stream = some row) (hm : m.seq = row.next)
    (hs : ∀ s, seqs.find? s = if s = m.stream then some ⟨m.stream, row.next + 1⟩ else st.streamSeq.find? s)
    (hi : st.messages.insert m = some msgs) :
    Background st { st with streamSeq := seqs, messages := msgs, carriers := st.carriers ++ es } :=
  { Background.refl st with
    carriers := fun e he => List.mem_append_left _ he
    dropped := fun k hk hn => absurd hn hk
    seq := fun s r h => by
      show ∃ r', seqs.find? s = some r' ∧ _
      rw [hs s]
      split
      · rename_i e
        rw [e, hr] at h
        cases h
        exact ⟨_, rfl, Int.le_add_one le_rfl⟩
      · exact ⟨r, h, le_rfl⟩
    seeded := fun s r' h hn => by
      have h : seqs.find? s = some r' := h
      rw [hs s] at h
      split at h
      · rename_i e; rw [e, hr] at hn; cases hn
      · rw [hn] at h; cases h
    stats := fun s h => .inl h
    stored := fun s q m' h => by
      have h : msgs.find? (s, q) = some m' := h
      rw [find?_insert hi] at h
      split at h
      · rename_i e
        obtain ⟨rfl, rfl⟩ : s = m.stream ∧ q = m.seq := by simpa [MessageRow.key] using e
        refine .inr ⟨⟨_, (hs m.stream).trans (if_pos rfl), ?_⟩, fun r h => ?_, fun hn => ?_⟩
        · show m.seq < row.next + 1
          omega
        · rw [hr] at h
          cases h
          exact hm.ge
        · rw [hr] at hn; cases hn
      · exact .inl ⟨m', h, rfl⟩
    backed := fun d _ h => by
      show msgs.find? _ ≠ none
      rw [find?_insert hi]
      split
      · simp
      · exact h }

theorem background_seed (hn : st.streamSeq.find? s = none) :
    Background st { st with streamSeq := st.streamSeq.insertIgnore ⟨s, 1⟩ } :=
  { Background.refl st with
    seq := fun s' r h => by
      have hne : s' ≠ s := by rintro rfl; rw [hn] at h; cases h
      exact ⟨r, by simpa [hne] using h, le_rfl⟩
    seeded := fun s' r' h hn' => by
      have h : (st.streamSeq.insertIgnore ⟨s, 1⟩).find? s' = some r' := h
      rw [find?_insertIgnore] at h
      split at h
      · rw [show st.streamSeq.find? (SeqRow.stream ⟨s, 1⟩) = none from hn] at h
        cases h
        exact le_rfl
      · rw [hn'] at h; cases h
    stats := fun s h => .inl h
    stored := fun s q m' h => .inl ⟨m', h, rfl⟩ }

/-- Each kind of move is a background change. -/
theorem Move.background (h : Move st st') : Background st st' := by
  cases h with
  | aside streams stats events flow limiter minted hs =>
    exact { Background.refl st with
      stats := fun s h => by
        obtain ⟨r, hr⟩ := Option.ne_none_iff_exists'.mp h
        exact hs s r hr }
  | note e _ => exact { Background.refl st with
      carriers := fun e he => List.mem_append_left _ he
      dropped := fun k hk hn => absurd hn hk }
  | touch t ht => exact background_touch ht
  | drop t ht => exact background_drop ht
  | store row m seqs msgs e hr hm hs hi _ => exact background_store hr hm hs hi
  | seed c _ _ hn => exact background_seed hn
  | prune t hk hp => exact { Background.refl st with
      stored := fun s q m' h => .inl (hk (s, q) m' h)
      backed := fun d hd h hn => hp _ h hn d hd rfl }

/-- **Background commands.** A run of moves keeps what each move keeps. -/
theorem Moves.background (h : Moves st st') : Background st st' := by
  induction h with
  | refl => exact .refl st
  | tail _ hm ih => exact ih.trans hm.background

end Messq

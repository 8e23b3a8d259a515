import Messq.Effect.Act

/-! # Publishing and dead letters as runs of acts

The building blocks of the background commands: one lemma for each function on the way from `commitEvent` to
`publishBatch`, and for the dead-letter sink (`deadLetter_run`), which buries the delivery it was given unless
its budget refuses the copy. -/

namespace Messq

open Lib Relation

variable {α β : Type} {env : Env} {kind : Kind} {stream : Bytes} {d : DeadCtx} {m : MessageRow} {c : Prop}
  {st st' : Store} {u : Unit} {ack : Ack} {budget : DeadBudget} {e : Event} {lc : LoadedConfig} {o : Option DeadBudget}
  {r : PublishReq} {x : Tx Unit} {k : Unit → Tx α} {a : α}

/-! ## Sequencing -/

theorem acts_pure (a : α) : Within (Acts env kind) (pure a : Tx α) := Within.pure (fun _ => .refl) a

theorem acts_bind {x : Tx α} {f : α → Tx β} (hx : Within (Acts env kind) x) (hf : ∀ a, Within (Acts env kind) (f a)) :
    Within (Acts env kind) (x >>= f) := Within.bind (fun _ _ _ => ReflTransGen.trans) hx hf

theorem acts_map {x : Tx α} (f : α → β) (hx : Within (Acts env kind) x) : Within (Acts env kind) (f <$> x) := by
  rw [← bind_pure_comp]
  exact acts_bind hx fun a => acts_pure (f a)

theorem acts_ite [Decidable c] {x y : Tx α} (hx : Within (Acts env kind) x) (hy : Within (Acts env kind) y) :
    Within (Acts env kind) (if c then x else y) := by
  split
  · exact hx
  · exact hy

/-- A statement that runs only under a condition, and what follows it. -/
theorem acts_when [Decidable c] (hx : Within (Acts env kind) x) (hk : ∀ u, Within (Acts env kind) (k u)) :
    Within (Acts env kind) (if c then x >>= k else k ()) :=
  acts_ite (acts_bind hx hk) (hk ())

/-- The same, taken apart. -/
theorem when_run [Decidable c] (h : (if c then x >>= k else k ()) st = .ok (a, st')) :
    ∃ u st₁, (if c then x else pure ()) st = .ok (u, st₁) ∧ k u st₁ = .ok (a, st') := by
  split at h
  · rename_i hc
    simpa only [if_pos hc] using run_bind.mp h
  · rename_i hc
    exact ⟨(), st, by rw [if_neg hc]; rfl, h⟩

theorem acts_get : Within (Acts env kind) (get : Tx Store) := Within.get fun _ => .refl

theorem acts_commitEvent (hts : e.ts = env.nowMs) (hn : e.name.plain = true) :
    Within (Acts env kind) (commitEvent e) := by
  intro st _ st' h
  obtain rfl := commitEvent_run.mp h
  exact .single (.log st e hts hn)

theorem acts_commitEvents {es : List Event} (he : ∀ e ∈ es, e.ts = env.nowMs ∧ e.name.plain = true) :
    Within (Acts env kind) (commitEvents es) := by
  induction es with
  | nil => exact acts_pure _
  | cons e es ih =>
    obtain ⟨hts, hn⟩ := he e List.mem_cons_self
    exact acts_bind (acts_commitEvent hts hn) fun _ => ih fun e' h' => he e' (List.mem_cons_of_mem _ h')

/-! ## Storing a message -/

theorem takeSeq_run {o : Option ℤ} (h : takeSeq stream st = .ok (o, st')) :
    (st.streamSeq.find? stream = none ∧ o = none ∧ st = st') ∨
    ∃ row, st.streamSeq.find? stream = some row ∧ o = some row.next ∧ st' = { st with
      streamSeq := st.streamSeq.update (fun r => r.stream == stream) (fun r => { r with next := r.next + 1 })
        fun _ _ => rfl } := by
  simp only [takeSeq, run_get_bind] at h
  cases hrow : st.streamSeq.find? stream with
  | none =>
    simp only [hrow, run_pure] at h
    exact .inl ⟨rfl, h.1.symm, h.2⟩
  | some row =>
    simp only [hrow, run_set_bind, run_pure] at h
    obtain ⟨rfl, rfl⟩ := h
    exact .inr ⟨row, rfl, rfl, rfl⟩

theorem insertMessage_run (h : insertMessage m st = .ok (u, st')) :
    ∃ t, st.messages.insert m = some t ∧ st' = { st with messages := t } := by
  simp only [insertMessage, run_get_bind] at h
  rw [run_ite, run_ite] at h
  split at h
  · cases h
  split at h
  · cases h
  cases ht : st.messages.insert m with
  | none => simp only [ht, fail_run] at h
  | some t =>
    simp only [ht, run_set] at h
    exact ⟨t, rfl, h.symm⟩

/-- Allocation, insertion, counters and report together. -/
theorem appended_run (st : Store) {st₁ st₂ st₃ : Store} {t : Table MessageRow.key} {u' : Unit}
    (_ : st.messages.insert m = some t) (h₁ : st₁ = { st with
      streamSeq := st.streamSeq.update (fun r => r.stream == m.stream) (fun r => { r with next := r.next + 1 })
        fun _ _ => rfl
      minted := st.minted + 1
      messages := t })
    (h₂ : addStats m.stream 1 m.size st₁ = .ok (u, st₂)) (h₃ : commitEvent e st₂ = .ok (u', st₃)) :
    st₃ = st.appended m t e := by
  obtain rfl := run_modify.mp h₂
  obtain rfl := commitEvent_run.mp h₃
  rw [h₁]
  rfl

/-! ## Publish -/

theorem allocSeq_run {seq : ℤ} (h : allocSeq stream st = .ok (seq, st')) :
    ∃ row, st.streamSeq.find? stream = some row ∧ row.next = seq ∧ st' = { st with
      streamSeq := st.streamSeq.update (fun r => r.stream == stream) (fun r => { r with next := r.next + 1 })
        fun _ _ => rfl } := by
  simp only [allocSeq, run_bind] at h
  obtain ⟨o, st₁, h₁, h⟩ := h
  rcases takeSeq_run h₁ with ⟨-, rfl, rfl⟩ | ⟨row, hrow, rfl, rfl⟩
  · simp only [refuse_run] at h
  · obtain ⟨rfl, rfl⟩ := run_pure.mp h
    exact ⟨row, hrow, rfl, rfl⟩

/-- A keyed message is stored only where its key is new. -/
theorem insertMessage_single (h : insertMessage m st = .ok (u, st')) (hk : m.dedupKey ≠ none) {m' : MessageRow}
    (hm : m' ∈ st.messages) (hs : m'.stream = m.stream) : m'.dedupKey ≠ m.dedupKey := by
  simp only [insertMessage, run_get_bind] at h
  rw [run_ite] at h
  split at h
  · cases h
  · rename_i hfree
    intro he
    refine hfree ⟨Option.isSome_iff_ne_none.mpr hk, List.any_eq_true.mpr ⟨m', hm, ?_⟩⟩
    simp [hs, he]

/-- What a publish with a new key, or without one, did: the row it stored and the receipt it gave. -/
structure Posted (env : Env) (lc : LoadedConfig) (r : PublishReq) (st : Store) (m : MessageRow) (ack : Ack)
    (st' : Store) :
    Prop where
  stream : m.stream = lc.name
  subject : m.subject = r.subject
  body : m.body = r.body
  size : m.size = r.body.length
  hdr : encodeHeaders r.headers env.opts.limits = .ok m.hdr
  publishedAt : m.publishedAt = st.clampPublishedAt lc.name env.nowMs
  dedupKey : m.dedupKey = if lc.window = 0 then none else nullStr r.msgId
  single : m.dedupKey ≠ none → ∀ m' ∈ st.messages, m'.stream = m.stream → m'.dedupKey ≠ m.dedupKey
  ack : ack = ⟨m.stream, m.seq, m.id, m.traceId, false, m.publishedAt⟩
  appended : ∃ row msgs e, st.streamSeq.find? m.stream = some row ∧ m.seq = row.next ∧
    st.messages.insert m = some msgs ∧
    e.ts = env.nowMs ∧ e.name = .msgPublish ∧ (e.stream.getD [], e.seq.getD 0) = m.key ∧ st' = st.appended m msgs e

theorem publishFresh_run (h : publishFresh env lc r st = .ok (ack, st')) : ∃ m, Posted env lc r st m ack st' := by
  simp only [publishFresh, run_bind, run_get, run_pure, mint_run, check_run] at h
  obtain ⟨seq, st₁, h₁, p, _, ⟨rfl, rfl⟩, hdr, _, ⟨hhdr, rfl⟩, _, _, ⟨rfl, rfl⟩, _, st₂, h₂, _, st₃,
    h₃, _, st₄, h₄, rfl, rfl⟩ := h
  obtain ⟨row, hrow, rfl, rfl⟩ := allocSeq_run h₁
  have hsingle := @insertMessage_single _ _ _ _ h₂
  obtain ⟨t, ht, rfl⟩ := insertMessage_run h₂
  obtain rfl := appended_run st ht rfl h₃ h₄
  refine ⟨_, rfl, rfl, rfl, rfl, hhdr, rfl, rfl, fun hk m' hm hs => hsingle hk hm hs, rfl, row, t, _,
    hrow, rfl, ht, rfl, rfl,
    ?_, rfl⟩
  simp only [nullStr_getD, nullI64_getD]

/-- The message a publish is a duplicate of. -/
def Store.original (st : Store) (lc : LoadedConfig) (r : PublishReq) : Option MessageRow :=
  if r.msgId ≠ [] ∧ lc.window > 0 then st.findDedupHit lc.name r.msgId else none

/-- **One line.** A publish that passes its checks repeats an earlier one and writes only its report, or stores a
message. -/
theorem publishTx_run (h : publishTxWithConfig env lc r st = .ok (ack, st')) :
    (∃ m e, st.original lc r = some m ∧ st' = st.logged e ∧
      ack = ⟨lc.name, m.seq, m.id, m.traceId, true, m.publishedAt⟩ ∧ e.ts = env.nowMs ∧ e.name = .msgDup) ∨
    st.original lc r = none ∧ ∃ m, Posted env lc r st m ack st' := by
  simp only [publishTxWithConfig, run_bind, run_get, check_run] at h
  obtain ⟨_, _, ⟨-, rfl⟩, _, _, ⟨rfl, rfl⟩, h⟩ := h
  unfold Store.original
  cases hit : (if r.msgId ≠ [] ∧ lc.window > 0 then st.findDedupHit lc.name r.msgId else none) with
  | some m =>
    simp only [hit, publishDuplicate, run_bind, run_pure] at h
    obtain ⟨_, _, h₁, rfl, rfl⟩ := h
    exact .inl ⟨m, _, rfl, (commitEvent_run.mp h₁).symm, rfl, rfl, rfl⟩
  | none =>
    simp only [hit] at h
    exact .inr ⟨rfl, publishFresh_run h⟩

theorem atLine_run {n : ℕ} {x : Tx α} : Tx.atLine n x st = .ok (a, st') ↔ x st = .ok (a, st') := by
  unfold Tx.atLine
  split
  · rename_i hx; simp [hx]
  · rfl

theorem acts_sweepDedup (stream : Bytes) : Within (Acts env .upkeep) (sweepDedup env stream) := by
  intro st n st' h
  simp only [sweepDedup, run_get_bind] at h
  cases hrow : st.streams.find? stream with
  | none => simp only [hrow, refuse_run] at h
  | some row =>
    simp only [hrow, run_set_bind, run_pure] at h
    obtain ⟨-, rfl⟩ := h
    exact .single (.redact st _)

/-! ## Dead letters -/

theorem ensureDLQStream_run {dlq origin : Bytes} (h : ensureDLQStream env dlq origin st = .ok (u, st')) :
    st' = st.ensured env dlq origin := by
  simp only [ensureDLQStream, run_get_bind, run_set_bind] at h
  rw [run_ite] at h
  unfold Store.ensured
  split at h
  · rename_i hs
    obtain ⟨-, rfl⟩ := run_pure.mp h
    rw [if_pos hs]
  · rename_i hs
    obtain rfl := insertEvent_run.mp h
    rw [if_neg hs]
    rfl

theorem copyDead_run {c : ConsumerRow} {origin : MessageRow} (hc : st.consumers.find? (d.stream, d.consumer) = some c)
    (hp : c.deadPolicy = .dlq) (ho : st.messages.find? (d.stream, d.seq) = some origin)
    (h : copyDead env d .dlq (dlqName d.stream) origin st = .ok (u, st')) : Buried env d st st' := by
  simp only [copyDead, run_bind, run_get, mint_run, require_run] at h
  obtain ⟨_, st₁, h₁, o, st₂, h₂, seq, _, ⟨rfl, rfl⟩, hdr, _, ⟨hmerge, rfl⟩, _, _, ⟨rfl, rfl⟩, _, _, ⟨rfl, rfl⟩,
    _, st₃, h₃, _, st₄, h₄, h₅⟩ := h
  obtain rfl := ensureDLQStream_run h₁
  rcases takeSeq_run h₂ with ⟨-, hnone, -⟩ | ⟨row, hrow, hsome, rfl⟩
  · cases hnone
  cases hsome
  obtain ⟨t, ht, rfl⟩ := insertMessage_run h₃
  obtain rfl := appended_run (st.ensured env (dlqName d.stream) d.stream) ht rfl h₄ h₅
  have hko := Table.find?_key ho
  have hos : origin.stream = d.stream := (Prod.mk.inj hko).1
  refine .copy c origin _ row t _ _ hc hp ho ⟨⟨congrArg dlqName hos.symm, rfl, rfl, rfl, rfl⟩, rfl, fun h he => ?_⟩
    hrow rfl ht rfl
  obtain rfl : hdr.1 = h := Option.some.inj he
  exact mergeCopyHeaders_le hmerge

theorem deadPolicyOf_dlq {consumer : Bytes} (h : st.deadPolicyOf stream consumer = .dlq) :
    ∃ c, st.consumers.find? (stream, consumer) = some c ∧ c.deadPolicy = .dlq := by
  unfold Store.deadPolicyOf at h
  cases hc : st.consumers.find? (stream, consumer) with
  | none => rw [hc] at h; cases h
  | some c =>
    rw [hc] at h
    exact ⟨c, rfl, h⟩

/-- A delivery given to the sink is buried, unless the budget refused it and nothing was written. -/
theorem deadLetter_run (h : deadLetter env budget d st = .ok (o, st')) :
    o = none ∧ st' = st ∨ o ≠ none ∧ Buried env d st st' := by
  simp only [deadLetter, run_get_bind] at h
  rw [run_ite] at h
  split at h
  · simp only [run_bind, run_pure] at h
    obtain ⟨_, _, hs, rfl, rfl⟩ := h
    rw [← commitEvent_run.mp hs]
    exact .inr ⟨(by simp), .report _ _ (.inl rfl)⟩
  rename_i hcopy
  cases horig : st.messages.find? (d.stream, d.seq) with
  | none =>
    simp only [horig, run_bind, run_pure] at h
    obtain ⟨_, _, hs, rfl, rfl⟩ := h
    rw [← commitEvent_run.mp hs]
    exact .inr ⟨(by simp), .report _ _ (.inr rfl)⟩
  | some origin =>
    simp only [horig, run_ite] at h
    split at h
    · obtain ⟨rfl, rfl⟩ := run_pure.mp h
      exact .inl ⟨rfl, rfl⟩
    · simp only [run_bind, run_pure] at h
      obtain ⟨_, _, hs, rfl, rfl⟩ := h
      obtain ⟨hpol, hdlq⟩ := planDead_copy (by simpa using hcopy)
      obtain ⟨c, hc, hp⟩ := deadPolicyOf_dlq hpol
      rw [hpol] at hs hdlq
      rw [hdlq] at hs
      exact .inr ⟨(by simp), copyDead_run hc hp horig hs⟩

/-- The sink leaves the delivery rows to its caller. -/
theorem deadLetter_frame (h : deadLetter env budget d st = .ok (o, st')) :
    st'.deliveries = st.deliveries ∧ st'.consumers = st.consumers := by
  rcases deadLetter_run h with ⟨-, rfl⟩ | ⟨-, hb⟩
  · exact ⟨rfl, rfl⟩
  · exact ⟨hb.frame.1, hb.frame.2.1⟩

end Messq

import Messq.Effect.Request

/-! # The record of the streams

Two commands write messages, publish and the dead-letter sink, and both do it in the same way: the row takes the next
number of its stream and a time stamp that is not before any other of the stream (`Entry.enter`). Everything else leaves
the messages as they are but for their keys, or takes some away, or creates or deletes a stream. `applyRequest_record`
says so of every request. -/

namespace Messq

open Lib Table Relation

variable {s : Bytes} {e : Event} {kind : Kind} {m : MessageRow} {p : MessageRow → Bool} {req : Request} {row : SeqRow}

/-! ## Numbers and reports -/

/-- The number the next message of a stream takes. -/
def Store.nextOf (st : Store) (s : Bytes) : ℤ := ((st.streamSeq.find? s).map SeqRow.next).getD 1

/-- The numbers of a stream that events report as allocated, in order. -/
def allocationsOf (s : Bytes) (es : List Event) : List ℤ :=
  es.filterMap fun e => e.allocation.bind fun p => if p.1 = s then some p.2 else none

theorem allocationsOf_append (s : Bytes) (es es' : List Event) :
    allocationsOf s (es ++ es') = allocationsOf s es ++ allocationsOf s es' := List.filterMap_append

theorem allocationsOf_none {es : List Event} (h : ∀ e ∈ es, e.allocation = none) : allocationsOf s es = [] :=
  List.filterMap_eq_nil_iff.mpr fun e he => by rw [h e he]; rfl

theorem allocationsOf_single {p : Bytes × ℤ} (h : e.allocation = some p) :
    allocationsOf s [e] = if p.1 = s then [p.2] else [] := by
  by_cases hs : p.1 = s <;> simp [allocationsOf, h, hs]

theorem nextOf_of_seq {st : Store} (h : st.streamSeq.find? s = some row) : st.nextOf s = row.next := by
  simp only [Store.nextOf, h, Option.map_some, Option.getD_some]

theorem nextOf_congr {st st' : Store} (h : st'.streamSeq.find? s = st.streamSeq.find? s) :
    st'.nextOf s = st.nextOf s := by
  simp only [Store.nextOf, h]

/-- The sink seeds the counter of a missing stream where it stood anyway. -/
theorem nextOf_ensured (st : Store) (env : Env) (dlq origin s : Bytes) :
    (st.ensured env dlq origin).nextOf s = st.nextOf s := by
  have hseq : (st.ensured env dlq origin).streamSeq.find? s = _ := find?_insertIgnore st.streamSeq ⟨dlq, 1⟩ s
  by_cases hs : s = dlq
  · subst hs
    rw [if_pos rfl] at hseq
    rw [nextOf_of_seq hseq, Store.nextOf]
    cases st.streamSeq.find? s <;> rfl
  · rw [if_neg (show ¬ s = SeqRow.stream ⟨dlq, 1⟩ from hs)] at hseq
    exact nextOf_congr hseq

/-! ## Entries -/

/-- What a new row says, whichever of the two commands wrote it. -/
inductive Stored (env : Env) (st : Store) (m : MessageRow) : Prop
  | published (h : m.Published env st)
  | copied (origin : MessageRow) (ho : origin ∈ st.messages) (h : m.Copied env st origin) (hn : m.dedupKey = none)

theorem Stored.publishedAt {env : Env} {st : Store} (h : Stored env st m) :
    m.publishedAt = st.clampPublishedAt m.stream env.nowMs := by
  cases h with
  | published h => exact h.publishedAt
  | copied _ _ h => exact h.publishedAt

/-- What a statement does to the messages, with the numbers it reports. -/
inductive Entry (env : Env) (st st' : Store) : Prop
  | stay (hm : ∀ m' ∈ st'.messages, ∃ m ∈ st.messages, m'.Remains m) (hk : ∀ m ∈ st.messages,
      ∃ m' ∈ st'.messages, m'.Remains m)
      (hq : ∀ s, st'.nextOf s = st.nextOf s) (ha : ∀ s, allocationsOf s st'.carriers = allocationsOf s st.carriers)
  | enter (m : MessageRow) (hw : Stored env st m) (hm : m.seq = st.nextOf m.stream)
      (hi : st.messages.insert m = some st'.messages)
      (hq : ∀ s, st'.nextOf s = if s = m.stream then st.nextOf s + 1 else st.nextOf s)
      (ha : ∀ s, allocationsOf s st'.carriers = allocationsOf s st.carriers ++ if s = m.stream then [m.seq] else [])

/-- A run of entries. -/
abbrev Entries (env : Env) : Store → Store → Prop := ReflTransGen (Entry env)

section Entry

variable {env : Env} {st st' : Store}

theorem entry_same (hm : st'.messages = st.messages) (hq : st'.streamSeq = st.streamSeq)
    (ha : ∀ s, allocationsOf s st'.carriers = allocationsOf s st.carriers) : Entry env st st' := by
  refine .stay (fun m hmem => ⟨m, ?_, .inl rfl⟩) (fun m hmem => ⟨m, ?_, .inl rfl⟩)
    (fun s => nextOf_congr (by rw [hq])) ha
  · rwa [hm] at hmem
  · rwa [hm]

theorem entry_logged (he : e.allocation = none) : Entry env st (st.logged e) := by
  refine entry_same rfl rfl fun s => ?_
  show allocationsOf s (st.carriers ++ [e]) = _
  rw [allocationsOf_append, allocationsOf_none (List.forall_mem_singleton.mpr he), List.append_nil]

/-- An entry is about the messages, the counters and the reports alone. -/
theorem Entry.congr {st₁ : Store} (h : Entry env st st₁) (hm : st'.messages = st₁.messages)
    (hq : st'.streamSeq = st₁.streamSeq) (hc : st'.carriers = st₁.carriers) : Entry env st st' := by
  have hn : ∀ s, st'.nextOf s = st₁.nextOf s := fun s => nextOf_congr (by rw [hq])
  cases h with
  | stay h₁ h₂ h₃ h₄ =>
    exact .stay (by rwa [hm]) (by rwa [hm]) (fun s => (hn s).trans (h₃ s)) fun s => by rw [hc]; exact h₄ s
  | enter m hw h₁ h₂ h₃ h₄ =>
    exact .enter m hw h₁ (by rwa [hm]) (fun s => (hn s).trans (h₃ s)) fun s => by rw [hc]; exact h₄ s

theorem entry_appended {st₀ : Store} {msgs : Table MessageRow.key} (hn : ∀ s, st₀.nextOf s = st.nextOf s)
    (hc : st₀.carriers = st.carriers) (hr : st₀.streamSeq.find? m.stream = some row) (hq : m.seq = row.next)
    (hi : st.messages.insert m = some msgs) (he : e.allocation = some (m.stream, m.seq)) (hw : Stored env st m) :
    Entry env st (st₀.appended m msgs e) := by
  have hnext : m.seq = st.nextOf m.stream := by rw [← hn, nextOf_of_seq hr, hq]
  refine .enter m hw hnext hi (fun s => ?_) fun s => ?_
  · have hseq : (st₀.appended m msgs e).streamSeq.find? s =
        if s = m.stream then some ⟨m.stream, row.next + 1⟩ else st₀.streamSeq.find? s := find?_takeSeq hr s
    by_cases hs : s = m.stream
    · subst hs
      rw [if_pos rfl] at hseq ⊢
      rw [nextOf_of_seq hseq, ← hnext, hq]
    · rw [if_neg hs] at hseq ⊢
      exact (nextOf_congr hseq).trans (hn s)
  · show allocationsOf s (st₀.carriers ++ [e]) = _
    rw [allocationsOf_append, allocationsOf_single he, hc]
    simp only [eq_comm]

theorem mem_redacted {t : Table MessageRow.key} {m' : MessageRow} :
    m' ∈ t.update p (fun m => { m with dedupKey := none }) (fun _ _ => rfl) ↔
      ∃ m ∈ t, (p m = true ∧ m' = { m with dedupKey := none }) ∨ (p m = false ∧ m' = m) := by
  rw [mem_update]
  refine exists_congr fun m => and_congr_right fun _ => ?_
  cases p m <;> simp [eq_comm]

theorem entry_redacted (hm : st'.messages = st.messages.update p (fun m => { m with dedupKey := none }) fun _ _ => rfl)
    (hq : st'.streamSeq = st.streamSeq) (hc : st'.carriers = st.carriers) : Entry env st st' := by
  refine .stay (fun m' hm' => ?_) (fun m hmem => ?_) (fun s => nextOf_congr (by rw [hq])) fun s => by rw [hc]
  · rw [hm] at hm'
    obtain ⟨m, hmem, ⟨-, rfl⟩ | ⟨-, rfl⟩⟩ := mem_redacted.mp hm'
    · exact ⟨m, hmem, .inr rfl⟩
    · exact ⟨m', hmem, .inl rfl⟩
  · rw [hm]
    cases hp : p m with
    | true => exact ⟨_, mem_redacted.mpr ⟨m, hmem, .inl ⟨hp, rfl⟩⟩, .inr rfl⟩
    | false => exact ⟨m, mem_redacted.mpr ⟨m, hmem, .inr ⟨hp, rfl⟩⟩, .inl rfl⟩

theorem Buried.entry {d : DeadCtx} (h : Buried env d st st') : Entry env st st' := by
  cases h with
  | report policy outcome ho =>
    refine entry_logged ?_
    rcases ho with rfl | rfl <;> rfl
  | copy c origin m row msgs trimmed truncated hc hp ho hm hr hq hi hn =>
    have hko := find?_key ho
    have hms : m.stream = dlqName d.stream := hm.stream.trans (congrArg dlqName (Prod.mk.inj hko).1)
    have hr' : (st.ensured env (dlqName d.stream) d.stream).streamSeq.find? m.stream = some row := by
      rw [hms]
      exact hr
    exact entry_appended (nextOf_ensured st env _ _) rfl hr' hq hi rfl (.copied origin (mem_of_find? ho) hm hn)

/-- **Acts.** All but those of retention are entries. -/
theorem Act.entry (h : Act env kind st st') (hk : kind ≠ .retention) : Entry env st st' := by
  cases h with
  | log _ e _ hn => exact entry_logged (allocation_of_plain hn)
  | lapse _ e _ hn => exact entry_logged (by unfold Event.allocation; rw [hn])
  | limit | extend | release | tune | trim => exact entry_same rfl rfl fun _ => rfl
  | ack _ d e t _ _ _ hn => exact (entry_logged (by unfold Event.allocation; rw [hn])).congr rfl rfl rfl
  | die _ st₁ ctx d t hb => exact hb.entry.congr rfl rfl rfl
  | store _ m row msgs e hr hq hi _ hn hkey hp =>
    refine entry_appended (fun _ => rfl) rfl hr hq hi ?_ (.published hp)
    unfold Event.allocation
    rw [hn]
    exact congrArg some hkey
  | evict => exact absurd rfl hk
  | redact => exact entry_redacted rfl rfl rfl

theorem Acts.entries (h : Acts env kind st st') (hk : kind ≠ .retention) : Entries env st st' := by
  induction h with
  | refl => exact .refl
  | tail _ ha ih => exact ih.tail (ha.entry hk)

end Entry

/-! ## Requests -/

/-- The request may take messages away. -/
def Request.thins : Request → Bool
  | .purge .. | .retention _ | .reapChunk _ | .reapResume | .restart _ => true
  | _ => false

/-- Messages are gone, and nothing was written. -/
structure Thinned (st st' : Store) : Prop where
  rows : ∀ m' ∈ st'.messages, ∃ m ∈ st.messages, m'.Remains m
  seq : st'.streamSeq = st.streamSeq
  reports : ∀ s, allocationsOf s st'.carriers = allocationsOf s st.carriers

/-- What a request does to the messages. -/
inductive Record (env : Env) (req : Request) (st st' : Store) : Prop
  | entries (h : Entries env st st')
  | thinned (hr : req.thins = true) (h : Thinned st st')
  | created (row : StreamRow) (h : StreamCreated st row st')
  | deleted (name : Bytes) (h : StreamDeleted st name st')

section Record

variable {env : Env} {st st' : Store}

theorem reports_allocations (hnil : st.carriers = []) (hr : Reports st st') (s : Bytes) :
    allocationsOf s st'.carriers = allocationsOf s st.carriers := by
  rw [hnil, allocationsOf_none fun e he => ?_]
  · rfl
  · rcases hr e he with h | h
    · rw [hnil] at h
      cases h
    · exact h

theorem thinned_of_find? (hm : ∀ k m, st'.messages.find? k = some m → st.messages.find? k = some m)
    (hq : st'.streamSeq = st.streamSeq) (ha : ∀ s, allocationsOf s st'.carriers = allocationsOf s st.carriers) :
    Thinned st st' :=
  ⟨fun m hmem => ⟨m, mem_of_find? (hm m.key m (find?_of_mem hmem)), .inl rfl⟩, hq, ha⟩

theorem Acts.thinned (h : Acts env .retention st st') : Thinned st st' := by
  induction h with
  | refl => exact ⟨fun m hm => ⟨m, hm, .inl rfl⟩, rfl, fun _ => rfl⟩
  | tail _ ha ih =>
    cases ha with
    | log _ e _ hn =>
      refine ⟨ih.rows, ih.seq, fun s => ?_⟩
      rw [← ih.reports]
      show allocationsOf s (_ ++ [e]) = _
      rw [allocationsOf_append, allocationsOf_none (List.forall_mem_singleton.mpr (allocation_of_plain hn)),
        List.append_nil]
    | evict _ row seqs high =>
      exact ⟨fun m hm => ih.rows m (mem_delete.mp hm).1, ih.seq, ih.reports⟩

/-- **Requests.** Every request enters messages, thins them out, or creates or deletes a stream. -/
theorem applyRequest_record {reply : Reply} (hnil : st.carriers = []) (h : applyRequest env req st = .ok (reply, st')) :
    Record env req st st' := by
  have he := applyRequest_effect h
  have hconf : ∀ {pair}, Confined st pair st' → Record env req st st' := fun hc =>
    .entries (.single (entry_same hc.messages hc.seq (reports_allocations hnil hc.reports)))
  cases req with
  | createStream cfg actor =>
    rcases he with rfl | he
    · exact .entries .refl
    · exact .created _ he
  | deleteStream name confirm actor => exact .deleted name he
  | reapChunk name =>
    have he : Reaped st name st' := he
    exact .thinned rfl (thinned_of_find? he.messages he.seq (reports_allocations hnil he.reports))
  | reapResume =>
    rcases he with rfl | ⟨name, -, he⟩
    · exact .entries .refl
    · exact .thinned rfl (thinned_of_find? he.messages he.seq (reports_allocations hnil he.reports))
  | createConsumer | updateConsumer | deleteConsumer | setPaused | seek => exact hconf he.1
  | fetch stream consumer batch maxBytes =>
    obtain ⟨r, c, -, -, -, -, -, hc, -⟩ := he
    exact hconf hc
  | purge stream spec dryRun actor =>
    rcases he with rfl | ⟨-, he⟩
    · exact .entries .refl
    · exact .thinned rfl (thinned_of_find? (fun k m hm => ((he.messages k m).mp hm).1) he.seq
        (reports_allocations hnil he.reports))
  | restart unclean =>
    have he : Restarted env st st' := he
    refine .thinned rfl ⟨fun m' hm' => ?_, he.seq, fun s => by rw [hnil, he.carriers]⟩
    obtain ⟨m, hm, hr⟩ := he.messages m'.key m' (find?_of_mem hm')
    exact ⟨m, mem_of_find? hm, hr⟩
  | retention batch =>
    have ha : Acts env .retention st st' := applyRequest_acts (by trivial) _ _ _ h
    exact .thinned rfl ha.thinned
  | updateStream | publish | publishBatch | sweepDedup | settle | sweep | retire | trimEvents | adminAction =>
    exact .entries ((applyRequest_acts (by trivial) _ _ _ h).entries (by simp [Request.kind]))

/-- **Rows.** What the two writers make and what survives the loss of a key holds of every stored message. -/
theorem Record.all {P : MessageRow → Prop} (h : Record env req st st')
    (hkeep : ∀ m' m : MessageRow, m'.Remains m → P m → P m')
    (hnew : ∀ (st : Store) (m : MessageRow), (∀ m ∈ st.messages, P m) → Stored env st m → P m)
    (hall : ∀ m ∈ st.messages, P m) : ∀ m ∈ st'.messages, P m := by
  have hback : ∀ {st₁ st₂ : Store}, (∀ m' ∈ st₂.messages, ∃ m ∈ st₁.messages, m'.Remains m) →
    (∀ m ∈ st₁.messages, P m) →
      ∀ m ∈ st₂.messages, P m := fun hrows hall m' hm' => by
    obtain ⟨m, hm, hr⟩ := hrows m' hm'
    exact hkeep m' m hr (hall m hm)
  cases h with
  | entries h =>
    induction h with
    | refl => exact hall
    | tail _ he ih =>
      cases he with
      | stay hm => exact hback hm ih
      | enter m hw _ hi =>
        intro m' hm'
        rcases (mem_insert hi).mp hm' with hold | rfl
        · exact ih m' hold
        · exact hnew _ m' ih hw
  | thinned _ h => exact hback h.rows hall
  | created _ h => rwa [h.messages]
  | deleted _ h => rwa [h.messages]

end Record

end Messq

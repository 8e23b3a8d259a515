import Messq.Effect.Background

/-! # A publish command line by line

A single publish and a batch run the same body for each of their lines, in one transaction and against the row of their
stream as it was loaded at the start. `lineRuns` lists the runs of that body with the stores around them, and `Lines`
says that they follow each other. -/

namespace Messq

open Lib Table

variable {ack : Ack} {rs : List PublishReq} {r : PublishReq} {stream : Bytes} {req : Request} {st₁ : Store}
  {row : StreamRow}

/-- The stream a client publishes to, and its lines. -/
def Request.lines : Request → Option (Bytes × List PublishReq)
  | .publish stream r => some (stream, [r])
  | .publishBatch stream rs => some (stream, rs)
  | _ => none

/-- One run of `publishTxWithConfig`. -/
structure LineRun where
  req : PublishReq
  ack : Ack
  pre : Store
  post : Store

variable {xs : List LineRun}

/-- What `loadStreamConfig` reads of a row. -/
def StreamRow.loaded (row : StreamRow) : LoadedConfig := ⟨row.name, row.subjects, row.maxMsgSize, row.dedupWindowMs⟩

/-- The lines of a command, up to the first that is not accepted. -/
def lineRuns (env : Env) (lc : LoadedConfig) : Store → List PublishReq → List LineRun
  | _, [] => []
  | st, r :: rs =>
    match publishTxWithConfig env lc r st with
    | .ok (ack, st') => ⟨r, ack, st, st'⟩ :: lineRuns env lc st' rs
    | .error _ => []

/-- Lines that follow each other from one store to another. -/
inductive Lines (env : Env) (lc : LoadedConfig) : Store → List LineRun → Store → Prop
  | nil (st : Store) : Lines env lc st [] st
  | cons {r : PublishReq} {ack : Ack} {st st₁ st' : Store} {xs : List LineRun}
      (h : publishTxWithConfig env lc r st = .ok (ack, st₁)) (hs : Lines env lc st₁ xs st') :
      Lines env lc st (⟨r, ack, st, st₁⟩ :: xs) st'

section Runs

variable {env : Env} {lc : LoadedConfig} {st st' : Store}

theorem lineRuns_cons (h : publishTxWithConfig env lc r st = .ok (ack, st₁)) :
    lineRuns env lc st (r :: rs) = ⟨r, ack, st, st₁⟩ :: lineRuns env lc st₁ rs := by
  simp only [lineRuns, h]

/-- A batch that commits ran each of its lines. -/
theorem publishLines_lines {n : ℕ} {as : List Ack} (h : publishLines env lc n rs st = .ok (as, st')) :
    Lines env lc st (lineRuns env lc st rs) st' ∧
      (lineRuns env lc st rs).map LineRun.req = rs ∧ (lineRuns env lc st rs).map LineRun.ack = as := by
  induction rs generalizing n as st with
  | nil =>
    obtain ⟨rfl, rfl⟩ := run_pure.mp h
    exact ⟨.nil st, rfl, rfl⟩
  | cons r rs ih =>
    simp only [publishLines, run_bind, run_pure, atLine_run] at h
    obtain ⟨ack, st₁, h₁, as', _, h₂, rfl, rfl⟩ := h
    obtain ⟨hs, hreq, hack⟩ := ih h₂
    rw [lineRuns_cons h₁, List.map_cons, List.map_cons, hreq, hack]
    exact ⟨.cons h₁ hs, rfl, rfl⟩

theorem loadStreamConfig_run {name : Bytes} (h : loadStreamConfig name st = .ok (lc, st₁)) :
    ∃ row, st.streams.find? name = some row ∧ lc = row.loaded ∧ st = st₁ := by
  simp only [loadStreamConfig, run_get_bind] at h
  cases hrow : st.streams.find? name with
  | none => simp only [hrow, refuse_run] at h
  | some row =>
    simp only [hrow, run_pure] at h
    refine ⟨row, rfl, ?_, h.2⟩
    rw [← h.1, StreamRow.loaded, find?_key hrow]

/-- The receipts in a reply. -/
def Reply.receipts : Reply → List Ack
  | .ack a => [a]
  | .acks as => as
  | _ => []

/-- **Publishing.** A committed publish ran each of its lines, against the row of its stream. -/
theorem publish_lines {reply : Reply} (hreq : req.lines = some (stream, rs))
    (h : applyRequest env req st = .ok (reply, st')) :
    ∃ row, st.streams.find? stream = some row ∧ Lines env row.loaded st (lineRuns env row.loaded st rs) st' ∧
      (lineRuns env row.loaded st rs).map LineRun.req = rs ∧
      (lineRuns env row.loaded st rs).map LineRun.ack = reply.receipts := by
  cases req with
  | publish s r =>
    cases hreq
    obtain ⟨ack, hrun, rfl⟩ := run_map.mp h
    obtain ⟨lc, st₁, h₁, h₂⟩ := run_bind.mp hrun
    obtain ⟨row, hrow, rfl, rfl⟩ := loadStreamConfig_run h₁
    refine ⟨row, hrow, ?_⟩
    rw [lineRuns_cons h₂]
    exact ⟨.cons h₂ (.nil st'), rfl, rfl⟩
  | publishBatch s rs =>
    cases hreq
    obtain ⟨as, hrun, rfl⟩ := run_map.mp h
    obtain ⟨lc, st₁, h₁, h₂⟩ := run_bind.mp hrun
    obtain ⟨row, hrow, rfl, rfl⟩ := loadStreamConfig_run h₁
    exact ⟨row, hrow, publishLines_lines h₂⟩
  | _ => cases hreq

/-- A line that ran passed the checks of its stream. -/
theorem publishTx_valid (h : publishTxWithConfig env lc r st = .ok (ack, st')) :
    validatePublish lc.subjects lc.maxMsgSize r env.opts.limits = .ok () := by
  simp only [publishTxWithConfig, run_bind, check_run] at h
  obtain ⟨_, _, ⟨hv, -⟩, -⟩ := h
  exact hv

theorem Lines.valid (h : Lines env lc st xs st') : ∀ r ∈ xs.map LineRun.req,
    validatePublish lc.subjects lc.maxMsgSize r env.opts.limits = .ok () := by
  induction h with
  | nil => simp
  | cons h _ ih =>
    rw [List.map_cons, List.forall_mem_cons]
    exact ⟨publishTx_valid h, ih⟩

theorem validatePublish_match {subjects : List Bytes} {maxMsgSize : ℤ} {l : Limits}
    (h : validatePublish subjects maxMsgSize r l = .ok ()) :
    ∃ set, Subject.parseSet subjects = .ok set ∧ set.match r.subject = true := by
  obtain ⟨_, -, h⟩ := bind_eq_ok.mp h
  obtain ⟨set, hset, h⟩ := bind_eq_ok.mp h
  refine ⟨set, ?_, by simpa using (guard_eq_ok.mp h).1⟩
  cases hs : Subject.parseSet subjects with
  | error e =>
    rw [hs] at hset
    cases hset
  | ok set' =>
    rw [hs] at hset
    exact congrArg _ (Except.ok.inj hset)

/-- A message that was posted against the row of its stream is published. -/
theorem Posted.published {m : MessageRow} (h : Posted env row.loaded r st m ack st')
    (hrow : st.streams.find? row.name = some row)
    (hv : validatePublish row.subjects row.maxMsgSize r env.opts.limits = .ok ()) : m.Published env st where
  publishedAt := by rw [h.publishedAt, h.stream]
  size := by rw [h.size, h.body]
  hdr h' he := encodeHeaders_le (by rw [h.hdr, he])
  subject := by
    obtain ⟨set, hset, hm⟩ := validatePublish_match hv
    exact ⟨row, set, by rw [h.stream]; exact hrow, hset, by rw [h.subject]; exact hm⟩
  single := h.single

/-- **Lines.** A publish command is a run of acts, and the rows of the streams stay. -/
theorem Lines.acts (h : Lines env row.loaded st xs st') (hrow : st.streams.find? row.name = some row) :
    Acts env .publish st st' := by
  induction h with
  | nil => exact .refl
  | cons hrun _ ih =>
    rcases publishTx_run hrun with ⟨_, e, -, rfl, -, hts, hn⟩ | ⟨-, m, hp⟩
    · exact .head (.log _ e hts (by rw [hn]; rfl)) (ih hrow)
    · obtain ⟨srow, msgs, e, hr, hq, hi, hts, hn, hk, rfl⟩ := hp.appended
      exact .head (.store _ m srow msgs e hr hq hi hts hn hk (hp.published hrow (publishTx_valid hrun))) (ih hrow)

theorem acts_of_lines (hreq : req.lines = some (stream, rs)) : Within (Acts env .publish) (applyRequest env req) := by
  intro st reply st' h
  obtain ⟨row, hrow, hs, -⟩ := publish_lines hreq h
  exact hs.acts (by rw [show row.name = stream from find?_key hrow]; exact hrow)

end Runs

end Messq

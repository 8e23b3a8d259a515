import Messq.Effect.Publish
import Messq.Property.Front
import Messq.Backed

/-! # The deduplication window

The memory of a message key is the row of the message it was published with (`Remembers`). The dedup sweep and the
recovery clear a key only when its window is over, and nothing else writes one; but retention deletes rows by its own
rules, and the key goes with its row (`retention_forgets`). As long as every retention sweep leaves the first message
(`RetentionSpares`), a second publish within the window is a duplicate (`duplicate_within_window`). -/

namespace Messq

open Lib Table Relation

variable {ack : Ack} {kind : Kind} {x₂ : LineRun} {xs ys : List LineRun} {unclean : Option Bytes} {r₂ : PublishReq}
  {req : Request} {u : Unit} {w : ℤ} {b : Broker} {key : Bytes} {env : Env} {lc : LoadedConfig} {m : MessageRow}
  {s : Step} {st st' : Store}

/-- The key is remembered with the message `m` and with no other message of its stream. -/
structure Remembers (st : Store) (key : Bytes) (m : MessageRow) : Prop where
  stored : m ∈ st.messages
  keyed : m.dedupKey = some key
  only : ∀ m' ∈ st.messages, m'.stream = m.stream → m'.dedupKey = some key → m' = m

section Lines

/-- The message stays, and what has a key afterwards had it before. -/
theorem Remembers.kept (h : Remembers st key m) (hm : m ∈ st'.messages)
    (hn : ∀ m' ∈ st'.messages, m'.dedupKey ≠ none → m' ∈ st.messages) : Remembers st' key m :=
  ⟨hm, h.keyed, fun m' hm' hs hk => h.only m' (hn m' hm' (by simp [hk])) hs hk⟩

theorem Remembers.same (h : Remembers st key m) (he : st'.messages = st.messages) : Remembers st' key m :=
  h.kept (by rw [he]; exact h.stored) fun m' hm' _ => by rwa [he] at hm'

theorem Posted.remembers {r : PublishReq} (h : Posted env lc r st m ack st') (hw : 0 < lc.window) (hk : r.msgId ≠ []) :
    Remembers st' r.msgId m := by
  obtain ⟨row, msgs, e, -, -, hi, -, -, -, rfl⟩ := h.appended
  have hkey : m.dedupKey = some r.msgId := by rw [h.dedupKey, if_neg (by omega), nullStr, if_neg hk]
  refine ⟨(mem_insert hi).mpr (.inr rfl), hkey, fun m' hm' hs hk' => ?_⟩
  rcases (mem_insert hi).mp hm' with hold | rfl
  · exact absurd (hk'.trans hkey.symm) (h.single (by simp [hkey]) m' hold hs)
  · rfl

/-- **Lines.** A line, whatever it publishes, leaves a remembered key alone. -/
theorem Remembers.line {r : PublishReq} (h : Remembers st key m)
    (hrun : publishTxWithConfig env lc r st = .ok (ack, st')) : Remembers st' key m := by
  rcases publishTx_run hrun with ⟨_, e, -, rfl, -⟩ | ⟨-, m₁, hp⟩
  · exact h.same rfl
  obtain ⟨row, msgs, e, -, -, hi, -, -, -, rfl⟩ := hp.appended
  refine ⟨(mem_insert hi).mpr (.inl h.stored), h.keyed, fun m' hm' hs hk => ?_⟩
  rcases (mem_insert hi).mp hm' with hold | rfl
  · exact h.only m' hold hs hk
  · exact absurd (h.keyed.trans hk.symm) (hp.single (by simp [hk]) m h.stored hs.symm)

theorem Remembers.lines (h : Remembers st key m) (hs : Lines env lc st xs st') : Remembers st' key m := by
  induction hs with
  | nil => exact h
  | cons hrun _ ih => exact ih (h.line hrun)

theorem Remembers.original {r : PublishReq} (h : Remembers st key m) (hs : lc.name = m.stream) (hw : 0 < lc.window)
    (hk : r.msgId = key) (hne : key ≠ []) : st.original lc r = some m := by
  rw [Store.original, if_pos ⟨by rwa [hk], hw⟩, hk, hs]
  cases hf : st.findDedupHit m.stream key with
  | none =>
    have := List.find?_eq_none.mp hf m h.stored
    simp [h.keyed] at this
  | some m' =>
    have hp := List.find?_some hf
    rw [Bool.and_eq_true, beq_iff_eq, beq_iff_eq] at hp
    rw [h.only m' (List.mem_of_find?_eq_some hf) hp.1 hp.2]

/-- The second publish gave the receipt of the first and stored nothing. -/
structure LineRun.Repeats (x first : LineRun) : Prop where
  duplicate : x.ack.duplicate = true
  seq : x.ack.seq = first.ack.seq
  id : x.ack.id = first.ack.id
  publishedAt : x.ack.publishedAt = first.ack.publishedAt
  messages : x.post.messages = x.pre.messages
  streamSeq : x.post.streamSeq = x.pre.streamSeq
  streamStats : x.post.streamStats = x.pre.streamStats

/-- A line that asks for a remembered key repeats the message it is remembered with. -/
theorem Remembers.repeats {x first : LineRun} (h : Remembers x.pre key m) (hs : lc.name = m.stream) (hw : 0 < lc.window)
    (hk : x.req.msgId = key) (hne : key ≠ []) (hrun : publishTxWithConfig env lc x.req x.pre = .ok (x.ack, x.post))
    (hf : first.ack = ⟨m.stream, m.seq, m.id, m.traceId, false, m.publishedAt⟩) : x.Repeats first := by
  have horig := h.original hs hw hk hne
  rcases publishTx_run hrun with ⟨m', e, ho, hpost, hack, -⟩ | ⟨hnone, -⟩
  · obtain rfl : m' = m := Option.some.inj (ho.symm.trans horig)
    refine ⟨by rw [hack], by rw [hack, hf], by rw [hack, hf], by rw [hack, hf], ?_, ?_, ?_⟩ <;> rw [hpost] <;> rfl
  · rw [horig] at hnone
    cases hnone

/-- Each line of a command ran on its own. -/
theorem Lines.split {x : LineRun} (h : Lines env lc st (xs ++ x :: ys) st') :
    Lines env lc st xs x.pre ∧ publishTxWithConfig env lc x.req x.pre = .ok (x.ack, x.post) ∧
    Lines env lc x.post ys st' := by
  induction xs generalizing st with
  | nil =>
    cases h with
    | cons hrun hs => exact ⟨.nil _, hrun, hs⟩
  | cons y xs ih =>
    cases h with
    | cons hrun hs =>
      obtain ⟨h₁, h₂, h₃⟩ := ih hs
      exact ⟨.cons hrun h₁, h₂, h₃⟩

/-- The message a line stored, with its receipt. -/
theorem posted_of_stored {x : LineRun} (hrun : publishTxWithConfig env lc x.req x.pre = .ok (x.ack, x.post))
    (hd : x.ack.duplicate = false) : ∃ m, Posted env lc x.req x.pre m x.ack x.post := by
  rcases publishTx_run hrun with ⟨m, e, -, -, hack, -⟩ | ⟨-, hp⟩
  · rw [hack] at hd
    cases hd
  · exact hp

end Lines

/-- What a restart does to the messages. -/
theorem restart_messages (h : restart env unclean st = .ok (u, st')) :
    st'.messages = (st.trimDedup env.nowMs).finishReaps.messages := by
  have hrec : ∀ {st₁ : Store}, recover env st₁ = .ok (u, st') →
      st'.messages = (st₁.trimDedup env.nowMs).finishReaps.messages := fun hr => by
    simp only [recover, run_bind, run_get_bind, run_set_bind, run_modify, insertEvent_run] at hr
    obtain ⟨_, _, rfl, rfl⟩ := hr
    rfl
  cases unclean with
  | none => exact hrec h
  | some reason =>
    simp only [restart, run_bind] at h
    obtain ⟨_, _, h₁, h⟩ := h
    obtain rfl := insertEvent_run.mp h₁
    have hm := hrec h
    exact hm

/-! ## Requests that keep a key -/

/-- The request deletes messages at the client's word. -/
def Request.erases : Request → Bool
  | .deleteStream .. | .purge .. => true
  | _ => false

theorem dropsStream_of_erases (h : req.erases = false) : req.dropsStream = false := by
  cases req with
  | deleteStream => cases h
  | _ => rfl

section Requests

/-- Clearing the keys of other messages. -/
theorem Remembers.redacted {p : MessageRow → Bool} (h : Remembers st key m) (hp : p m = false)
    (he : st'.messages = st.messages.update p (fun m => { m with dedupKey := none }) fun _ _ => rfl) :
    Remembers st' key m := by
  refine h.kept ?_ fun m' hm' hk => ?_
  · rw [he]
    exact mem_update.mpr ⟨m, h.stored, by simp [hp]⟩
  · rw [he] at hm'
    obtain ⟨m₀, hm₀, rfl⟩ := mem_update.mp hm'
    split at hk
    · exact absurd rfl hk
    · rename_i hn
      rwa [if_neg hn]

theorem Act.remembers (ha : Act env kind st st') (hk : kind = .delivery ∨ kind = .trimming) (h : Remembers st key m) :
    Remembers st' key m := by
  cases ha with
  | log | lapse | limit | extend | release | ack | trim => exact h.same rfl
  | die _ st₁ ctx d t hb =>
    cases hb with
    | report => exact h.same rfl
    | copy c origin m₁ row msgs trimmed truncated _ _ _ _ _ _ hi hn =>
      refine h.kept ((mem_insert hi).mpr (.inl h.stored)) fun m' hm' hk' => ?_
      rcases (mem_insert hi).mp hm' with hold | rfl
      · exact hold
      · exact absurd hn hk'
  | store | evict | tune | redact => simp at hk

theorem Acts.remembers (ha : Acts env kind st st') (hk : kind = .delivery ∨ kind = .trimming) (h : Remembers st key m) :
    Remembers st' key m := by
  induction ha with
  | refl => exact h
  | tail _ ha ih => exact ha.remembers hk ih

theorem updateStream_messages {name actor : Bytes} {p : StreamPatch} {allowDataLoss : Bool} {r : UpdateResult}
    (h : updateStream env name p allowDataLoss actor st = .ok (r, st')) : st'.messages = st.messages := by
  obtain ⟨old, stats, -, -, ⟨-, rfl⟩ | ⟨-, -, -, rfl⟩⟩ := updateStream_run h <;> rfl

/-- What a sweep of the keys clears is out of its window. -/
theorem sweepDedup_remembers {stream : Bytes} {n : ℕ} (h : Remembers st key m)
    (hw : (st.streams.find? m.stream).map StreamRow.dedupWindowMs = some w) (hage : env.nowMs - w ≤ m.publishedAt)
    (hrun : sweepDedup env stream st = .ok (n, st')) : Remembers st' key m := by
  simp only [sweepDedup, run_get_bind] at hrun
  cases hrow : st.streams.find? stream with
  | none => simp only [hrow, refuse_run] at hrun
  | some row =>
    simp only [hrow, run_set_bind, run_pure] at hrun
    obtain ⟨-, rfl⟩ := hrun
    refine h.redacted (decide_eq_false fun hhit => ?_) rfl
    obtain ⟨m', hm', hkey⟩ := List.mem_map.mp hhit
    have hm' := List.mem_of_mem_take hm'
    rw [List.mem_insertionSort, List.mem_filter, mem_messagesOf] at hm'
    obtain ⟨⟨hmem, hs⟩, hexp⟩ := hm'
    obtain rfl : m' = m := eq_of_key hmem h.stored hkey
    rw [hs, hrow] at hw
    cases hw
    rw [Bool.and_eq_true, decide_eq_true_eq] at hexp
    have := hexp.1
    omega

theorem restart_remembers (h : Remembers st key m) (hset : ∀ s, st.metaTable.find? (.reap s) = none)
    (hw : (st.streams.find? m.stream).map StreamRow.dedupWindowMs = some w) (hage : env.nowMs - w ≤ m.publishedAt)
    (hrun : restart env unclean st = .ok (u, st')) : Remembers st' key m := by
  obtain ⟨row, hrow, rfl⟩ := Option.map_eq_some_iff.mp hw
  have htrim : Remembers (st.trimDedup env.nowMs) key m := by
    refine h.redacted ?_ rfl
    simp only [hrow, Option.any_some, decide_eq_false_iff_not]
    omega
  have hfind : ∀ k, st'.messages.find? k = (st.trimDedup env.nowMs).messages.find? k := fun k => by
    rw [restart_messages hrun, find?_finishReaps, if_neg]
    exact not_not.mpr (hset k.1)
  refine htrim.kept ?_ fun m' hm' _ => ?_
  · exact mem_of_find? ((hfind m.key).trans (find?_of_mem htrim.stored))
  · exact mem_of_find? ((hfind m'.key).symm.trans (find?_of_mem hm'))

/-- **Requests.** A request keeps a remembered key within its window, if it does not delete messages at the client's
word and, when it is a retention sweep, leaves the message. -/
theorem applyRequest_remembers {reply : Reply} (h : Remembers st key m)
    (hset : ∀ s, st.metaTable.find? (.reap s) = none) (hchunk : ∀ name, req ≠ .reapChunk name) (hq : req.erases = false)
    (hw : (st.streams.find? m.stream).map StreamRow.dedupWindowMs = some w)
    (hage : env.nowMs - w ≤ m.publishedAt) (hspare : req.retains = true → st'.messages.find? m.key ≠ none)
    (hrun : applyRequest env req st = .ok (reply, st')) : Remembers st' key m := by
  have he := applyRequest_effect hrun
  cases req with
  | createStream cfg actor =>
    rcases he with rfl | he
    · exact h
    · exact h.same he.messages
  | deleteStream | purge => cases hq
  | reapChunk name => exact absurd rfl (hchunk name)
  | reapResume =>
    rcases he with rfl | ⟨name, hmark, -⟩
    · exact h
    · exact absurd (hset name) hmark
  | createConsumer | updateConsumer | deleteConsumer | setPaused | seek => exact h.same he.1.messages
  | fetch stream consumer batch maxBytes =>
    obtain ⟨r, c, -, -, -, -, -, hconf, -⟩ := he
    exact h.same hconf.messages
  | restart unclean =>
    obtain ⟨u, hr, -⟩ := run_map.mp hrun
    exact restart_remembers h hset hw hage hr
  | publish stream r =>
    obtain ⟨row, -, hs, -⟩ := publish_lines (show _ = some (stream, [r]) from rfl) hrun
    exact h.lines hs
  | publishBatch stream rs =>
    obtain ⟨row, -, hs, -⟩ := publish_lines (show _ = some (stream, rs) from rfl) hrun
    exact h.lines hs
  | sweepDedup stream =>
    obtain ⟨n, hr, -⟩ := run_map.mp hrun
    exact sweepDedup_remembers h hw hage hr
  | updateStream name p a actor =>
    obtain ⟨r, hr, -⟩ := run_map.mp hrun
    exact h.same (updateStream_messages hr)
  | adminAction setting source target actor =>
    obtain ⟨u, hr, -⟩ := run_map.mp hrun
    have hr := commitEvent_run.mp hr
    exact h.same (by rw [← hr])
  | retention batch =>
    obtain ⟨r, hr, -⟩ := run_map.mp hrun
    obtain ⟨m', hm'⟩ := Option.ne_none_iff_exists'.mp (hspare rfl)
    obtain rfl : m' = m := eq_of_key (retention_subset hr m' (mem_of_find? hm')) h.stored (find?_key hm')
    exact h.kept (mem_of_find? hm') fun m' hm' _ => retention_subset hr m' hm'
  | settle | sweep | retire => exact (applyRequest_acts (by trivial) _ _ _ hrun).remembers (.inl rfl) h
  | trimEvents => exact (applyRequest_acts (by trivial) _ _ _ hrun).remembers (.inr rfl) h

end Requests

/-! ## Runs -/

/-- The lines a committed visit ran. -/
def Visit.lineRuns (v : Visit) : List LineRun :=
  match v.act.req.lines, v.out with
  | some (stream, rs), .ok _ _ =>
    match v.pre.store.streams.find? stream with
    | some row => Messq.lineRuns v.act.env row.loaded { v.pre.store with carriers := [] } rs
    | none => []
  | _, _ => []

/-- The window of a stream when the visit starts. -/
def Visit.window (v : Visit) (s : Bytes) : Option ℤ := (v.pre.store.streams.find? s).map StreamRow.dedupWindowMs

/-- A retention sweep leaves the message `q` of the stream `s`. -/
def RetentionSpares (s : Bytes) (q : ℤ) (v : Visit) : Prop :=
  v.act.req.retains = true → v.post.store.messages.find? (s, q) ≠ none

instance (s : Bytes) (q : ℤ) (v : Visit) :
    Decidable (RetentionSpares s q v) := by unfold RetentionSpares; infer_instance

section Visits

variable {x : LineRun}

/-- The lines of a visit with the row they ran against. -/
theorem lines_of_lineRuns (hx : x ∈ Visit.lineRuns (visit Broker.exec b s)) :
    ∃ row reply st, Committed b s reply st ∧ b.store.streams.find? row.name = some row ∧
      Lines s.env row.loaded { b.store with carriers := [] } (Visit.lineRuns (visit Broker.exec b s)) st := by
  rcases exec_cases b s with ⟨reply, st, hcom⟩ | ⟨-, -, -, hout⟩
  · cases hl : s.req.lines with
    | none => simp [Visit.lineRuns, visit, hl] at hx
    | some p =>
      obtain ⟨row, hrow, hs, -⟩ := publish_lines (show _ = some (p.1, p.2) from hl) hcom.run
      have hrow : b.store.streams.find? p.1 = some row := hrow
      have hruns : Visit.lineRuns (visit Broker.exec b s) =
          Messq.lineRuns s.env row.loaded { b.store with carriers := [] } p.2 := by
        simp only [Visit.lineRuns, visit, hl, hcom.out, hrow]
      rw [hruns]
      exact ⟨row, reply, st, hcom, by rw [find?_key hrow]; exact hrow, hs⟩
  · unfold Visit.lineRuns at hx
    split at hx
    · rename_i ho
      exact absurd ho (hout _ _)
    · cases hx

/-- A line ran against the row of the stream in its receipt. -/
theorem line_of_lineRuns (hx : Visit.lineRuns (visit Broker.exec b s) = xs ++ x :: ys) :
    ∃ row reply st, Committed b s reply st ∧ b.store.streams.find? x.ack.stream = some row ∧ row.name = x.ack.stream ∧
      Lines s.env row.loaded { b.store with carriers := [] } xs x.pre ∧
      publishTxWithConfig s.env row.loaded x.req x.pre = .ok (x.ack, x.post) ∧ Lines s.env row.loaded x.post ys st := by
  obtain ⟨row, reply, st, hcom, hrow, hs⟩ := lines_of_lineRuns (x := x) (by rw [hx]; simp)
  rw [hx] at hs
  obtain ⟨h₁, hrun, h₂⟩ := hs.split
  have hstream : x.ack.stream = row.name := by
    rcases publishTx_run hrun with ⟨m, e, -, -, hack, -⟩ | ⟨-, m, hp⟩
    · rw [hack]
      rfl
    · rw [hp.ack]
      exact hp.stream
  exact ⟨row, reply, st, hcom, by rw [hstream]; exact hrow, hstream.symm, h₁, hrun, h₂⟩

end Visits

/-- The line `x₁` of `v₁` stored a key, and `r₂` asks for it again in `v₂`, within a window that did not change. -/
structure WithinWindow (v₁ : Visit) (x₁ : LineRun) (between : List Visit) (v₂ : Visit) (r₂ : PublishReq) : Prop where
  first : x₁ ∈ Visit.lineRuns v₁
  stored : x₁.ack.duplicate = false
  key : r₂.msgId = x₁.req.msgId
  keyed : x₁.req.msgId ≠ []
  window : ∃ w > 0, (∀ v ∈ v₁ :: (between ++ [v₂]), Visit.window v x₁.ack.stream = some w) ∧
    v₂.act.env.nowMs < x₁.ack.publishedAt + w

/-- **Memory.** Within the window the key is remembered when the second publish starts. -/
theorem remembers_within_window {h₁ h₂ h₃ : List Visit} {v₁ v₂ : Visit} {x₁ : LineRun}
    (r : Runs (h₁ ++ v₁ :: (h₂ ++ v₂ :: h₃)) b) (hq : ∀ v ∈ h₁ ++ v₁ :: (h₂ ++ v₂ :: h₃), v.act.req.erases = false)
    (hclock : (h₁ ++ v₁ :: (h₂ ++ v₂ :: h₃)).Pairwise fun v w => v.act.env.nowMs ≤ w.act.env.nowMs)
    (hw : WithinWindow v₁ x₁ h₂ v₂ r₂) (hs : ∀ v ∈ h₂, RetentionSpares x₁.ack.stream x₁.ack.seq v) :
    ∃ m, x₁.ack = ⟨m.stream, m.seq, m.id, m.traceId, false, m.publishedAt⟩ ∧
      Remembers v₂.pre.store x₁.req.msgId m := by
  obtain ⟨w, hpos, hwin, hlt⟩ := hw.window
  obtain ⟨r₁, hv₁, rest⟩ := r.at_visit
  obtain ⟨rbetween, -, -⟩ := rest.at_visit
  -- the first publish
  obtain ⟨xs, ys, hsplit⟩ := List.append_of_mem hw.first
  rw [hv₁] at hsplit
  obtain ⟨row, reply, st, hcom, hrow, hname, -, hrun, hafter⟩ := line_of_lineRuns hsplit
  obtain ⟨m, hp⟩ := posted_of_stored hrun hw.stored
  have hack := hp.ack
  have hms : m.stream = x₁.ack.stream := by rw [hack]
  have hwindow : row.loaded.window = w := by
    have := hwin v₁ List.mem_cons_self
    rw [Visit.window, hrow] at this
    exact Option.some.inj this
  refine ⟨m, hack, ?_⟩
  have hstart : Remembers v₁.post.store x₁.req.msgId m := by
    have hm := (hp.remembers (by rw [hwindow]; exact hpos) hw.keyed).lines hafter
    rw [hv₁]
    show Remembers (v₁.pre.exec v₁.act).1.store _ _
    rw [hcom.post]
    exact hm.same rfl
  have hset₁ : v₁.post.Settled := by
    have hset := Runs.settled (b := v₁.pre) r₁ fun v hv => dropsStream_of_erases (hq v (List.mem_append_left _ hv))
    rw [hv₁]
    exact exec_settled hset (dropsStream_of_erases (hq v₁ (by simp)))
  -- along the visits in between
  have hinv := History.invariant rbetween (C := fun _ v => v ∈ h₂)
    (I := fun _ b => b.Settled ∧ Remembers b.store x₁.req.msgId m)
    (upheld_of_forall fun v hv => hv) ⟨hset₁, hstart⟩ ?_
  · exact hinv.2
  rintro h b act ⟨hset, hrem⟩ hv
  have hmem : visit Broker.exec b act ∈ h₁ ++ v₁ :: (h₂ ++ v₂ :: h₃) := by simp [hv]
  have hq' : act.req.erases = false := hq _ hmem
  refine ⟨exec_settled hset (dropsStream_of_erases hq'), ?_⟩
  have hspare : act.req.retains = true → (b.exec act).1.store.messages.find? m.key ≠ none := fun hret => by
    rw [MessageRow.key, hms, show m.seq = x₁.ack.seq by rw [hack]]
    exact hs _ hv hret
  rcases exec_cases b act with ⟨reply, st, hcom⟩ | ⟨hst, -⟩
  · rw [hcom.post] at hspare ⊢
    have hlater : act.env.nowMs ≤ v₂.act.env.nowMs := by
      have hpair := (List.pairwise_append.mp hclock).2.1
      have hpair := (List.pairwise_append.mp (List.pairwise_cons.mp hpair).2).2.2
      exact hpair _ hv v₂ List.mem_cons_self
    have hpub : x₁.ack.publishedAt = m.publishedAt := by rw [hack]
    have hwin' : (b.store.streams.find? m.stream).map StreamRow.dedupWindowMs = some w := by
      rw [hms]
      exact hwin _ (List.mem_cons_of_mem _ (List.mem_append_left _ hv))
    have hchunk : ∀ name, act.req ≠ .reapChunk name := fun name hr => hset.not_chunk hr hcom.admitted
    have hrem' : Remembers { b.store with carriers := [] } x₁.req.msgId m := hrem.same rfl
    have hage : act.env.nowMs - w ≤ m.publishedAt := by omega
    have hst : Remembers st x₁.req.msgId m :=
      applyRequest_remembers hrem' hset.unmarked hchunk hq' hwin' hage hspare hcom.run
    exact hst.same rfl
  · rw [hst]
    exact hrem

/-- A request to publish one message that nothing but its key is in the way of. -/
structure Acceptable (v : Visit) (s : Bytes) (r : PublishReq) : Prop where
  req : v.act.req = .publish s r
  admitted : v.pre.latched = false
  checked : checkRequest v.act.env v.act.req = .ok ()
  valid : ∀ row ∈ v.pre.store.streams, row.name = s →
    validatePublish row.subjects row.maxMsgSize r v.act.env.opts.limits = .ok ()

/-- A valid line that asks for a remembered key is answered. -/
theorem Remembers.answered {r : PublishReq} (h : Remembers st key m) (hs : lc.name = m.stream) (hw : 0 < lc.window)
    (hk : r.msgId = key) (hne : key ≠ []) (hv : validatePublish lc.subjects lc.maxMsgSize r env.opts.limits = .ok ()) :
    ∃ p, publishTxWithConfig env lc r st = .ok p := by
  have horig := h.original hs hw hk hne
  unfold Store.original at horig
  rw [publishTxWithConfig, run_bind_ok (check_run.mpr ⟨hv, rfl⟩), run_bind_ok (run_get.mpr ⟨rfl, rfl⟩), horig]
  exact ⟨_, rfl⟩

section Within

variable {h₁ h₂ h₃ : List Visit} {v₁ v₂ : Visit} {x₁ : LineRun} (r : Runs (h₁ ++ v₁ :: (h₂ ++ v₂ :: h₃)) b)
  (hq : ∀ v ∈ h₁ ++ v₁ :: (h₂ ++ v₂ :: h₃), v.act.req.erases = false)
  (hclock : (h₁ ++ v₁ :: (h₂ ++ v₂ :: h₃)).Pairwise fun v w => v.act.env.nowMs ≤ w.act.env.nowMs)
  (hs : ∀ v ∈ h₂, RetentionSpares x₁.ack.stream x₁.ack.seq v)

include r hq hclock hs

/-- The row of the stream when the second publish starts. -/
theorem WithinWindow.row (hw : WithinWindow v₁ x₁ h₂ v₂ r₂) :
    ∃ row m, v₂.pre.store.streams.find? x₁.ack.stream = some row ∧ 0 < row.loaded.window ∧ row.loaded.name = m.stream ∧
      x₁.ack = ⟨m.stream, m.seq, m.id, m.traceId, false, m.publishedAt⟩ ∧ Remembers v₂.pre.store x₁.req.msgId m := by
  obtain ⟨m, hack, hrem⟩ := remembers_within_window r hq hclock hw hs
  obtain ⟨w, hpos, hwin, -⟩ := hw.window
  obtain ⟨row, hrow, hww⟩ := Option.map_eq_some_iff.mp (hwin v₂ (by simp))
  have hms : x₁.ack.stream = m.stream := by rw [hack]
  exact ⟨row, m, hrow, by rw [StreamRow.loaded, hww]; exact hpos, (find?_key hrow).trans hms, hack, hrem⟩

theorem repeats_within_window (hx₂ : x₂ ∈ Visit.lineRuns v₂) (hstream : x₂.ack.stream = x₁.ack.stream)
    (hw : WithinWindow v₁ x₁ h₂ v₂ x₂.req) : x₂.Repeats x₁ := by
  obtain ⟨row, m, hrow, hpos, hname, hack, hrem⟩ := hw.row r hq hclock hs
  obtain ⟨-, -, rest⟩ := r.at_visit
  obtain ⟨-, hv₂, -⟩ := rest.at_visit
  obtain ⟨xs, ys, hsplit⟩ := List.append_of_mem hx₂
  rw [hv₂] at hsplit
  obtain ⟨row', reply, st, hcom, hrow', -, hbefore, hrun, -⟩ := line_of_lineRuns hsplit
  rw [hstream] at hrow'
  obtain rfl : row = row' := Option.some.inj (hrow.symm.trans hrow')
  have hrem' : Remembers { v₂.pre.store with carriers := [] } x₁.req.msgId m := hrem.same rfl
  exact (hrem'.lines hbefore).repeats hname hpos hw.key hw.keyed hrun hack

theorem answered_within_window (ha : Acceptable v₂ x₁.ack.stream r₂) (hw : WithinWindow v₁ x₁ h₂ v₂ r₂) :
    ∃ x₂, Visit.lineRuns v₂ = [x₂] ∧ x₂.req = r₂ ∧ x₂.Repeats x₁ := by
  obtain ⟨row, m, hrow, hpos, hname, hack, hrem⟩ := hw.row r hq hclock hs
  obtain ⟨-, -, rest⟩ := r.at_visit
  obtain ⟨-, hv₂, -⟩ := rest.at_visit
  have hrem' : Remembers { v₂.pre.store with carriers := [] } x₁.req.msgId m := hrem.same rfl
  obtain ⟨⟨ack, st'⟩, hrun⟩ := hrem'.answered hname hpos hw.key hw.keyed
    (ha.valid row (mem_of_find? hrow) (find?_key hrow))
  -- the request commits
  have hload : loadStreamConfig x₁.ack.stream { v₂.pre.store with carriers := [] } =
      .ok (row.loaded, { v₂.pre.store with carriers := [] }) := by
    rw [loadStreamConfig, run_bind_ok (run_get.mpr ⟨rfl, rfl⟩)]
    simp only [hrow]
    rw [StreamRow.loaded, find?_key hrow]
    rfl
  have hcmd : command v₂.act.env v₂.act.req { v₂.pre.store with carriers := [] } = .ok (.ack ack, st') := by
    rw [command, run_bind_ok (check_run.mpr ⟨ha.checked, rfl⟩), ha.req]
    exact run_map.mpr ⟨ack, run_bind.mpr ⟨_, _, hload, hrun⟩, rfl⟩
  have hadm : v₂.pre.admits v₂.act.req = true := by rw [ha.req]; simp [Broker.admits, ha.admitted]
  have hout : v₂.out = .ok (.ack ack) st'.carriers := by
    rw [hv₂]
    simp only [visit, Broker.exec, hadm, hcmd, Bool.not_true, Bool.false_eq_true, if_false]
  have hlines : Visit.lineRuns v₂ = [⟨r₂, ack, { v₂.pre.store with carriers := [] }, st'⟩] := by
    simp only [Visit.lineRuns, ha.req, Request.lines, hout, hrow, lineRuns_cons hrun]
    rfl
  exact ⟨_, hlines, rfl, hrem'.repeats hname hpos hw.key hw.keyed hrun hack⟩

end Within

/-- Lines of one batch: the first takes effect before the second. -/
theorem repeats_within_batch {zs : List LineRun} {x₁ : LineRun}
    (hx : Visit.lineRuns (visit Broker.exec b s) = xs ++ x₁ :: (ys ++ x₂ :: zs)) (hd : x₁.ack.duplicate = false)
    (hk : x₂.req.msgId = x₁.req.msgId) (hne : x₁.req.msgId ≠ []) (hpos : 0 < w)
    (hw : Visit.window (visit Broker.exec b s) x₁.ack.stream = some w) : x₂.Repeats x₁ := by
  obtain ⟨row, reply, st, -, hrow, -, -, hrun₁, hafter⟩ := line_of_lineRuns hx
  obtain ⟨hbefore, hrun₂, -⟩ := hafter.split
  obtain ⟨m, hp⟩ := posted_of_stored hrun₁ hd
  have hww : row.loaded.window = w := by
    rw [Visit.window] at hw
    have hrow : (visit Broker.exec b s).pre.store.streams.find? x₁.ack.stream = some row := hrow
    rw [hrow] at hw
    exact Option.some.inj hw
  exact ((hp.remembers (by rw [hww]; exact hpos) hne).lines hbefore).repeats hp.stream.symm
    (by rw [hww]; exact hpos) hk hne
    hrun₂ hp.ack

/-- **Deduplication.** In a run without purge and stream deletion whose clock does not go back, a publish within the
window of an earlier one with its key repeats it, if every retention sweep in between leaves the message; a single
publish that passes its checks is answered so. Lines of one batch repeat each other without further condition. -/
theorem duplicate_within_window {h : List Visit} {b : Broker} (r : Runs h b) (hq : ∀ v ∈ h, v.act.req.erases = false)
    (hclock : h.Pairwise fun v w => v.act.env.nowMs ≤ w.act.env.nowMs) :
    (∀ h₁ v₁ x₁ h₂ v₂ h₃, h = h₁ ++ v₁ :: (h₂ ++ v₂ :: h₃) → (∀ v ∈ h₂, RetentionSpares x₁.ack.stream x₁.ack.seq v) →
      (∀ x₂ ∈ Visit.lineRuns v₂, x₂.ack.stream = x₁.ack.stream → WithinWindow v₁ x₁ h₂ v₂ x₂.req → x₂.Repeats x₁) ∧
      ∀ r₂, Acceptable v₂ x₁.ack.stream r₂ → WithinWindow v₁ x₁ h₂ v₂ r₂ →
        ∃ x₂, Visit.lineRuns v₂ = [x₂] ∧ x₂.req = r₂ ∧ x₂.Repeats x₁) ∧
    ∀ v ∈ h, ∀ xs x₁ ys x₂ zs, Visit.lineRuns v = xs ++ x₁ :: (ys ++ x₂ :: zs) → x₁.ack.duplicate = false →
      x₂.req.msgId = x₁.req.msgId → x₁.req.msgId ≠ [] → (∃ w > 0, Visit.window v x₁.ack.stream = some w) →
      x₂.Repeats x₁ := by
  refine ⟨fun h₁ v₁ x₁ h₂ v₂ h₃ hh hs => ?_, fun v hv xs x₁ ys x₂ zs hx hd hk hne hw => ?_⟩
  · subst hh
    exact ⟨fun x₂ hx₂ hstream hw => repeats_within_window r hq hclock hs hx₂ hstream hw,
      fun r₂ ha hw => answered_within_window r hq hclock hs ha hw⟩
  · obtain ⟨h₁, h₂, -, -, hvis, -⟩ := r.at_mem hv
    obtain ⟨w, hpos, hw⟩ := hw
    rw [hvis] at hx hw
    exact repeats_within_batch hx hd hk hne hpos hw

/-! ## A sweep in between -/

section Life

variable (pre : List (ℤ × Request)) (a : ℤ × Request) (mid : List (ℤ × Request)) (c : ℤ × Request)

/-- The visit of a request after others. -/
def visitAfter : Visit := visit Broker.exec (playState pre) ⟨.atMs a.1, a.2⟩

/-- The visits that follow it. -/
def visitsAfter : List Visit := trace Broker.exec (visitAfter pre a).post (mid.map fun r => ⟨.atMs r.1, r.2⟩)

/-- The visit of a last request. -/
def lastVisit : Visit :=
  visit Broker.exec (run Broker.exec (visitAfter pre a).post (mid.map fun r => ⟨.atMs r.1, r.2⟩)) ⟨.atMs c.1, c.2⟩

theorem runs_last : Runs (play pre ++ visitAfter pre a :: (visitsAfter pre a mid ++ [lastVisit pre a mid c]))
    (lastVisit pre a mid c).post := by
  have hrun := ((runs_play pre).step ⟨.atMs a.1, a.2⟩).trans
    (history_trace (visitAfter pre a).post (mid.map fun r => ⟨.atMs r.1, r.2⟩))
  have hlast := hrun.step ⟨.atMs c.1, c.2⟩
  rw [List.append_assoc, List.append_assoc, List.singleton_append] at hlast
  exact hlast

end Life

/-- A publish with the key `k`. -/
def keyedPublish : Request := .publish aStream { subject := str "a", body := [], msgId := str "k" }

/-- What can be told of a line by evaluation: stream, number, whether it was a duplicate, key, time. -/
def LineRun.summary (x : LineRun) : Bytes × ℤ × Bool × Bytes × ℤ :=
  (x.ack.stream, x.ack.seq, x.ack.duplicate, x.req.msgId, x.ack.publishedAt)

theorem exists_of_summary {v : Visit} {p : Bytes × ℤ × Bool × Bytes × ℤ}
    (h : (Visit.lineRuns v).map LineRun.summary = [p]) : ∃ x, x ∈ Visit.lineRuns v ∧ x.summary = p := by
  have hp : p ∈ (Visit.lineRuns v).map LineRun.summary := by rw [h]; exact List.mem_singleton_self p
  exact List.mem_map.mp hp

/-- A stream with room for one message. -/
def smallStream : List (ℤ × Request) := [(1, .createStream { defaultConfig aStream with maxMsgs := 1 } [])]

/-- It gets a second message, and a sweep. -/
def smallSweep : List (ℤ × Request) := [(3, aPublish), (4, .retention 0)]

/-- The sweep takes the message and its key, 2 ms after it was published; the second publish of the key is stored. -/
theorem retention_forgets : ∃ h₁ v₁ x₁ h₂ v₂ x₂ b, Runs (h₁ ++ v₁ :: (h₂ ++ [v₂])) b ∧
    (∀ v ∈ h₁ ++ v₁ :: (h₂ ++ [v₂]), v.act.req.erases = false) ∧
    (h₁ ++ v₁ :: (h₂ ++ [v₂])).Pairwise (fun v w => v.act.env.nowMs ≤ w.act.env.nowMs) ∧
    WithinWindow v₁ x₁ h₂ v₂ x₂.req ∧ x₂ ∈ Visit.lineRuns v₂ ∧ x₂.ack.stream = x₁.ack.stream ∧
    x₂.ack.duplicate = false ∧ x₁.ack.seq = 1 ∧ x₂.ack.seq = 3 := by
  obtain ⟨x₁, hx₁, hs₁⟩ := exists_of_summary (v := visitAfter smallStream (2, keyedPublish))
    (p := (aStream, 1, false, str "k", 2)) (by decide +kernel)
  obtain ⟨x₂, hx₂, hs₂⟩ := exists_of_summary (v := lastVisit smallStream (2, keyedPublish) smallSweep (5, keyedPublish))
    (p := (aStream, 3, false, str "k", 5)) (by decide +kernel)
  simp only [LineRun.summary, Prod.mk.injEq] at hs₁ hs₂
  obtain ⟨hstream₁, hseq₁, hdup₁, hkey₁, htime₁⟩ := hs₁
  obtain ⟨hstream₂, hseq₂, hdup₂, hkey₂, -⟩ := hs₂
  refine ⟨_, _, x₁, _, _, x₂, _, runs_last smallStream (2, keyedPublish) smallSweep (5, keyedPublish),
    by decide +kernel, by decide +kernel,
    ⟨hx₁, hdup₁, by rw [hkey₁, hkey₂], by rw [hkey₁]; decide, 120000, by decide, ?_, ?_⟩, hx₂,
    by rw [hstream₁, hstream₂], hdup₂, hseq₁, hseq₂⟩
  · rw [hstream₁]
    decide +kernel
  · rw [htime₁]
    decide +kernel

/-- A stream with a consumer. -/
def watchedStream : List (ℤ × Request) :=
  [(1, aCreate),
    (2, aSubscribe)]

/-- The message is delivered, kept through a sweep, acknowledged; a sweep of the keys and a restart follow. -/
def watchedSweeps : List (ℤ × Request) :=
  [(4, aFetch 1), (5, .retention 0), (6, .settle [anItem .ack 1 1 1]),
    (7, .sweepDedup aStream), (8, .restart none)]

theorem duplicate_within_window_watched : ∃ x₁ x₂,
    x₁ ∈ Visit.lineRuns (visitAfter watchedStream (3, keyedPublish)) ∧
    x₂ ∈ Visit.lineRuns (lastVisit watchedStream (3, keyedPublish) watchedSweeps (9, keyedPublish)) ∧
    x₁.ack.publishedAt = 3 ∧ x₂.Repeats x₁ := by
  obtain ⟨x₁, hx₁, hs₁⟩ := exists_of_summary (v := visitAfter watchedStream (3, keyedPublish))
    (p := (aStream, 1, false, str "k", 3)) (by decide +kernel)
  obtain ⟨x₂, hx₂, hs₂⟩ := exists_of_summary
    (v := lastVisit watchedStream (3, keyedPublish) watchedSweeps (9, keyedPublish))
    (p := (aStream, 1, true, str "k", 3)) (by decide +kernel)
  simp only [LineRun.summary, Prod.mk.injEq] at hs₁ hs₂
  obtain ⟨hstream₁, hseq₁, hdup₁, hkey₁, htime₁⟩ := hs₁
  obtain ⟨hstream₂, -, -, hkey₂, -⟩ := hs₂
  refine ⟨x₁, x₂, hx₁, hx₂, htime₁, ?_⟩
  have hruns := runs_last watchedStream (3, keyedPublish) watchedSweeps (9, keyedPublish)
  refine ((duplicate_within_window hruns (by decide +kernel) (by decide +kernel)).1 _ _ x₁ _ _ _ rfl ?_).1 x₂ hx₂
    (by rw [hstream₁, hstream₂])
    ⟨hx₁, hdup₁, by rw [hkey₁, hkey₂], by rw [hkey₁]; decide, 120000, by decide, ?_, ?_⟩
  · rw [hstream₁, hseq₁]
    decide +kernel
  · rw [hstream₁]
    decide +kernel
  · rw [htime₁]
    decide +kernel

end Messq

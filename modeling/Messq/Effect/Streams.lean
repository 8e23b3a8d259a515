import Messq.Effect.Janitor
import Messq.Lib.Tally

/-! # What the stream commands and a restart do

One inversion lemma for each command that touches streams as a whole: `createStream_run`, `deleteStream_run`,
`reapChunk_run`, `reapResume_run`, `restart_run`. Each says what the tables hold afterwards, key by key. -/

namespace Messq

open Lib Table Relation

variable {name stream actor : Bytes} {env : Env} {st st' : Store} {u : Unit} {m : MessageRow}
  {hit : MessageRow → Bool} {f : StatsRow → StatsRow} {nowMs : ℤ}

/-- Nothing new is reported as allocated. -/
def Reports (st st' : Store) : Prop := ∀ e ∈ st'.carriers, e ∈ st.carriers ∨ e.allocation = none

theorem Reports.refl (st : Store) : Reports st st := fun _ h => .inl h

theorem reports_append {e : Event} (he : e.allocation = none) :
    ∀ e' ∈ st.carriers ++ [e], e' ∈ st.carriers ∨ e'.allocation = none := by
  intro e' h
  rcases List.mem_append.mp h with h | h
  · exact .inl h
  · obtain rfl := List.mem_singleton.mp h
    exact .inr he

/-! ## Tallies -/

/-- The number of messages of a stream, and their total size. -/
def Store.tally (st : Store) (s : Bytes) : ℤ × ℤ := Lib.tally MessageRow.size (st.messagesOf s)

def StatsRow.counts (r : StatsRow) : ℤ × ℤ := (r.msgs, r.bytes)

/-- The counters move as the messages do. -/
def InStep (st st' : Store) : Prop := ∀ s, Option.Rel (fun r r' => r'.counts - r.counts = st'.tally s - st.tally s)
  (st.streamStats.find? s) (st'.streamStats.find? s)

theorem InStep.none_iff (h : InStep st st') (s : Bytes) :
    st'.streamStats.find? s = none ↔ st.streamStats.find? s = none := by
  have h := h s
  revert h
  cases st.streamStats.find? s <;> cases st'.streamStats.find? s <;> simp

/-- Counters of one stream moved in place, by `delta`. -/
theorem inStep_of_update {delta : ℤ × ℤ} (hf)
    (hs : st'.streamStats = st.streamStats.update (fun r => r.stream == stream) f hf)
    (hcount : ∀ r, (f r).counts = r.counts + delta)
    (htally : ∀ s, st'.tally s = st.tally s + if s = stream then delta else 0) : InStep st st' := by
  intro s
  have hfind : st'.streamStats.find? s =
      if s = stream then (st.streamStats.find? s).map f else st.streamStats.find? s := by
    rw [hs]
    exact find?_update_key st.streamStats hf (P := fun k => k = stream) (fun _ => Bool.beq_eq_decide_eq _ _) s
  rw [hfind, htally]
  cases st.streamStats.find? s with
  | none => split <;> exact .none
  | some r =>
    split
    · exact .some (by rw [hcount, add_sub_cancel_left, add_sub_cancel_left])
    · exact .some (by simp)

/-- A delete within one stream. -/
theorem tally_deleted (hstream : ∀ m, hit m = true → m.stream = stream) (hm : st'.messages = st.messages.delete hit)
    (s : Bytes) :
    st'.tally s = st.tally s + if s = stream then -Lib.tally MessageRow.size (st.messages.select hit) else 0 := by
  have hd := tally_delete MessageRow.size st.messages (fun m => m.stream == s) hit
  have hgone : (st.messages.select fun m => m.stream == s).filter hit =
      if s = stream then st.messages.select hit else [] := by
    rw [Table.select, Table.select, List.filter_filter]
    split
    · rename_i he
      refine List.filter_congr fun m _ => ?_
      cases hh : hit m with
      | false => rfl
      | true => simp [hstream m hh, he]
    · rename_i he
      refine List.filter_eq_nil_iff.mpr fun m _ => ?_
      simp only [Bool.and_eq_true, beq_iff_eq, not_and]
      rintro hh rfl
      exact he (hstream m hh)
  rw [Store.tally, Store.messagesOf, hm, hd, sub_eq_add_neg, hgone]
  split
  · rfl
  · rw [tally_nil, neg_zero]
    rfl

/-- A delete within one stream whose counters lose the tally of what goes. -/
theorem inStep_deleted (hf) (hstream : ∀ m, hit m = true → m.stream = stream)
    (hm : st'.messages = st.messages.delete hit)
    (hs : st'.streamStats = st.streamStats.update (fun r => r.stream == stream) f hf)
    (hcount : ∀ r, (f r).counts = r.counts + -Lib.tally MessageRow.size (st.messages.select hit)) : InStep st st' :=
  inStep_of_update hf hs hcount (tally_deleted hstream hm)

/-! ## Creation -/

/-- The number at which a created stream starts. -/
def Store.resumesAt (st : Store) (name : Bytes) (next : ℤ) : Prop :=
  (st.metaTable.find? (.seqHwm name) = none ∧ next = 1) ∨
    ∃ hwm, st.metaTable.find? (.seqHwm name) = some ⟨.seqHwm name, .int hwm⟩ ∧ next = hwm + 1

structure StreamCreated (st : Store) (row : StreamRow) (st' : Store) : Prop where
  fresh : st.streamSeq.find? row.name = none
  unmarked : st.metaTable.find? (.reap row.name) = none
  seq : ∃ next, st.resumesAt row.name next ∧
    ∀ s, st'.streamSeq.find? s = if s = row.name then some ⟨row.name, next⟩ else st.streamSeq.find? s
  stats : ∀ s, st'.streamStats.find? s = if s = row.name then some ⟨row.name, 0, 0, 0, 0⟩ else st.streamStats.find? s
  streams : ∀ s, st'.streams.find? s = if s = row.name then some row else st.streams.find? s
  metaTable : st'.metaTable = st.metaTable
  messages : st'.messages = st.messages
  consumers : st'.consumers = st.consumers
  deliveries : st'.deliveries = st.deliveries
  reports : Reports st st'

theorem find?_metaTable {t : Table MetaRow.k} {k : MetaKey} {v : MetaVal} (h : (t.find? k).map MetaRow.v = some v) :
    t.find? k = some ⟨k, v⟩ := by
  obtain ⟨row, hrow, rfl⟩ := Option.map_eq_some_iff.mp h
  obtain rfl := find?_key hrow
  exact hrow

theorem refuseDuringReap_run (h : refuseDuringReap name st = .ok (u, st')) :
    st.metaTable.find? (.reap name) = none ∧ st = st' := by
  simp only [refuseDuringReap, run_get_bind] at h
  cases hr : (st.metaTable.find? (.reap name)).map MetaRow.v with
  | none =>
    simp only [hr, run_pure] at h
    exact ⟨Option.map_eq_none_iff.mp hr, h.2⟩
  | some v => cases v <;> simp only [hr, refuse_run, fail_run] at h

theorem refuseDuringReap_ok (h : st.metaTable.find? (.reap name) = none) : refuseDuringReap name st = .ok ((), st) := by
  refine run_bind.mpr ⟨st, st, run_get.mpr ⟨rfl, rfl⟩, ?_⟩
  rw [h]
  rfl

theorem resumeSeq_run {next : ℤ} (h : resumeSeq name st = .ok (next, st')) : st.resumesAt name next ∧ st = st' := by
  simp only [resumeSeq, run_get_bind] at h
  cases hr : (st.metaTable.find? (.seqHwm name)).map MetaRow.v with
  | none =>
    simp only [hr, run_pure] at h
    exact ⟨.inl ⟨Option.map_eq_none_iff.mp hr, h.1.symm⟩, h.2⟩
  | some v => cases v with
    | int hwm =>
      simp only [hr, run_pure] at h
      exact ⟨.inr ⟨hwm, find?_metaTable hr, h.1.symm⟩, h.2⟩
    | start p => simp only [hr, fail_run] at h

theorem createStream_run {cfg : StreamConfig} {r : CreateStreamResult}
    (h : createStream env cfg actor st = .ok (r, st')) : st' = st ∨ StreamCreated st (cfg.row env.nowMs) st' := by
  simp only [createStream, run_bind, run_get] at h
  obtain ⟨_, _, h₁, _, _, ⟨rfl, rfl⟩, h⟩ := h
  obtain ⟨hreap, rfl⟩ := refuseDuringReap_run h₁
  cases hex : st.streams.rows.find? fun r => eqNoCase r.name cfg.name with
  | some existing =>
    simp only [hex, run_ite] at h
    split at h
    · cases h
    split at h
    · cases h
    obtain ⟨-, rfl⟩ := run_pure.mp h
    exact .inl rfl
  | none =>
    simp only [hex, insertStream, run_bind, run_get, run_set, run_pure, require_run] at h
    obtain ⟨next, _, h₂, _, _, ⟨rfl, rfl⟩, streams, _, ⟨hstreams, rfl⟩, seqs, _, ⟨hseqs, rfl⟩, stats, _, ⟨hstats, rfl⟩,
      _, _, rfl, _, _, h₃, -, rfl⟩ := h
    obtain ⟨hnext, rfl⟩ := resumeSeq_run h₂
    obtain rfl := commitEvent_run.mp h₃
    exact .inr ⟨find?_of_insert hseqs, hreap, ⟨next, hnext, find?_insert hseqs⟩, find?_insert hstats,
      find?_insert hstreams, rfl, rfl, rfl, rfl, reports_append rfl⟩

/-! ## Deletion -/

structure StreamDeleted (st : Store) (name : Bytes) (st' : Store) : Prop where
  existed : st.streamStats.find? name ≠ none
  consumers : ∀ k, st'.consumers.find? k = if k.1 = name then none else st.consumers.find? k
  deliveries : ∀ k, st'.deliveries.find? k = if k.1 = name then none else st.deliveries.find? k
  seq : ∀ s, st'.streamSeq.find? s = if s = name then none else st.streamSeq.find? s
  stats : ∀ s, st'.streamStats.find? s = if s = name then none else st.streamStats.find? s
  streams : ∀ s, st'.streams.find? s = if s = name then none else st.streams.find? s
  marked : st'.metaTable.find? (.reap name) ≠ none
  hwm : st'.metaTable.find? (.seqHwm name) =
    some ⟨.seqHwm name, .int (((st.streamSeq.find? name).map SeqRow.next).getD 0 - 1)⟩
  other : ∀ k, k ≠ .reap name → k ≠ .seqHwm name → st'.metaTable.find? k = st.metaTable.find? k
  messages : st'.messages = st.messages
  reports : Reports st st'

theorem deleteStream_run {r : DeleteResult} (h : deleteStream env name actor st = .ok (r, st')) :
    StreamDeleted st name st' := by
  simp only [deleteStream, run_get_bind] at h
  cases hs : st.streamStats.find? name with
  | none => simp only [hs, refuse_run] at h
  | some stats =>
    simp only [hs, run_bind, run_set_bind, run_pure] at h
    obtain ⟨_, _, h₁, -, rfl⟩ := h
    obtain rfl := commitEvent_run.mp h₁
    exact {
      existed := by simp [hs]
      consumers := find?_delete_key st.consumers fun r => Bool.beq_eq_decide_eq _ _
      deliveries := find?_delete_key st.deliveries fun r => Bool.beq_eq_decide_eq _ _
      seq := find?_delete_key st.streamSeq fun r => Bool.beq_eq_decide_eq _ _
      stats := find?_delete_key st.streamStats fun r => Bool.beq_eq_decide_eq _ _
      streams := find?_delete_key st.streams fun r => Bool.beq_eq_decide_eq _ _
      marked := by simp
      hwm := by simp
      other := fun k h₁ h₂ => by simp [h₁, h₂]
      messages := rfl
      reports := reports_append rfl }

/-- One chunk of a deletion: the marker goes only with the last message. -/
structure Reaped (st : Store) (name : Bytes) (st' : Store) : Prop where
  streams : st'.streams = st.streams
  consumers : st'.consumers = st.consumers
  deliveries : st'.deliveries = st.deliveries
  seq : st'.streamSeq = st.streamSeq
  stats : st'.streamStats = st.streamStats
  messages : ∀ k m, st'.messages.find? k = some m → st.messages.find? k = some m
  elsewhere : ∀ k, k.1 ≠ name → st'.messages.find? k = st.messages.find? k
  metaTable : st'.metaTable = st.metaTable ∨
    (∀ k, st'.metaTable.find? k = if k = .reap name then none else st.metaTable.find? k) ∧
      ∀ q, st'.messages.find? (name, q) = none
  reports : Reports st st'

theorem mem_messagesOf : m ∈ st.messagesOf stream ↔ m ∈ st.messages ∧ m.stream = stream := by
  simp [Store.messagesOf]

/-- Two messages of a stream with one number are one message. -/
theorem seq_inj_messagesOf {a b : MessageRow} (ha : a ∈ st.messagesOf stream) (hb : b ∈ st.messagesOf stream)
    (h : a.seq = b.seq) : a = b := by
  obtain ⟨ha, has⟩ := mem_messagesOf.mp ha
  obtain ⟨hb, hbs⟩ := mem_messagesOf.mp hb
  exact eq_of_key ha hb (by rw [MessageRow.key, MessageRow.key, has, hbs, h])

theorem stored_of_mem (h : m ∈ st.messages) : st.messages.find? (m.stream, m.seq) = some m :=
  find?_of_mem h

theorem reapChunk_run {r : ReapChunkResult} (h : reapChunk name st = .ok (r, st')) : Reaped st name st' := by
  simp only [reapChunk, run_get_bind, run_set_bind, run_pure] at h
  obtain ⟨-, rfl⟩ := h
  generalize hchunk : ((st.messagesOf name).take deleteChunkRows).map MessageRow.key = chunk
  have hof : ∀ k ∈ chunk, k.1 = name := by
    intro k hk
    obtain ⟨m, hm, rfl⟩ := List.mem_map.mp (hchunk ▸ hk)
    exact (mem_messagesOf.mp (List.mem_of_mem_take hm)).2
  refine ⟨rfl, rfl, rfl, rfl, rfl, fun k m hm => ?_, fun k hk => ?_, ?_, .refl _⟩
  · rw [find?_delete_key st.messages (P := fun k => k ∈ chunk) fun _ => rfl] at hm
    split at hm
    · cases hm
    · exact hm
  · rw [find?_delete_key st.messages (P := fun k => k ∈ chunk) fun _ => rfl, if_neg fun h => hk (hof k h)]
  · by_cases hshort : chunk.length < deleteChunkRows
    · refine .inr ⟨fun k => ?_, fun q => ?_⟩
      · simp only [hshort, if_true]
        exact find?_delete_key st.metaTable (P := fun k => k = MetaKey.reap name)
          (fun r => Bool.beq_eq_decide_eq _ _) k
      · -- a short chunk took every message of the stream
        have hall : (st.messagesOf name).take deleteChunkRows = st.messagesOf name := by
          refine List.take_of_length_le ?_
          rw [← hchunk, List.length_map, List.length_take] at hshort
          omega
        rw [find?_delete_key st.messages (P := fun k => k ∈ chunk) fun _ => rfl]
        split
        · rfl
        · rename_i hq
          by_contra hn
          obtain ⟨m, hm⟩ := Option.ne_none_iff_exists'.mp hn
          have hk : m.key = (name, q) := find?_key hm
          refine hq (hchunk ▸ hall.symm ▸ List.mem_map.mpr ⟨m, mem_messagesOf.mpr ⟨mem_of_find? hm, ?_⟩, hk⟩)
          exact congrArg Prod.fst hk
    · exact .inl (by simp [hshort])

theorem reapNames_iff : name ∈ st.reapNames ↔ st.metaTable.find? (.reap name) ≠ none := by
  simp only [Store.reapNames, List.mem_insertionSort, List.mem_filterMap]
  constructor
  · rintro ⟨row, hrow, hname⟩
    have hk : row.k = .reap name := by
      unfold MetaRow.reapName at hname
      split at hname
      · rename_i hk; cases hname; exact hk
      · cases hname
    exact fun hn => find?_eq_none.mp hn row hrow hk
  · intro hn
    obtain ⟨row, hrow⟩ := Option.ne_none_iff_exists'.mp hn
    have hk : row.k = .reap name := find?_key hrow
    exact ⟨row, mem_of_find? hrow, by simp [MetaRow.reapName, hk]⟩

theorem reapResume_run {r : ReapResumeResult} (h : reapResume st = .ok (r, st')) :
    st' = st ∨ ∃ name, st.metaTable.find? (.reap name) ≠ none ∧ Reaped st name st' := by
  simp only [reapResume, run_get_bind] at h
  cases hn : st.reapNames with
  | nil =>
    simp only [hn, run_pure] at h
    exact .inl h.2.symm
  | cons name names =>
    simp only [hn, run_bind, run_pure] at h
    obtain ⟨c, _, h, -, rfl⟩ := h
    exact .inr ⟨name, reapNames_iff.mp (by simp [hn]), reapChunk_run h⟩

/-! ## Restart -/

/-- What a restart leaves: leases are waiting again, and marked streams have lost their messages. -/
structure Restarted (env : Env) (st st' : Store) : Prop where
  streams : st'.streams = st.streams
  consumers : st'.consumers = st.consumers
  seq : st'.streamSeq = st.streamSeq
  stats : st'.streamStats = st.streamStats
  deliveries : ∀ k, st'.deliveries.find? k = (st.deliveries.find? k).map fun d =>
    if d.state == .inflight then d.reclaim env.nowMs (milliseconds env.opts.reclaimJitter) (env.random d.key) else d
  messages : ∀ k m', st'.messages.find? k = some m' → ∃ m, st.messages.find? k = some m ∧ m'.Remains m
  unmarked : ∀ k, st.metaTable.find? (.reap k.1) = none → st.messages.find? k ≠ none → st'.messages.find? k ≠ none
  marked : ∀ k, st.metaTable.find? (.reap k.1) ≠ none → st'.messages.find? k = none
  tally : ∀ s, st.metaTable.find? (.reap s) = none → st'.tally s = st.tally s
  cleared : ∀ name, st'.metaTable.find? (.reap name) = none
  other : ∀ k, (∀ name, k ≠ .reap name) → st'.metaTable.find? k = st.metaTable.find? k
  carriers : st'.carriers = []

theorem reapName_reap {row : MetaRow} : row.reapName.isSome = true ↔ ∃ name, row.k = .reap name := by
  unfold MetaRow.reapName
  cases row.k with
  | reap name => simp
  | seqHwm name => simp
  | cstart stream consumer => simp

theorem find?_reclaimLeases (st : Store) (env : Env) (k : Bytes × Bytes × ℤ) :
    (st.reclaimLeases env).deliveries.find? k =
    (st.deliveries.find? k).map fun d => if d.state == .inflight then
      d.reclaim env.nowMs (milliseconds env.opts.reclaimJitter) (env.random d.key) else d :=
  find?_update st.deliveries (fun d => d.state == .inflight)
    (fun d => d.reclaim env.nowMs (milliseconds env.opts.reclaimJitter) (env.random d.key)) (fun _ _ => rfl) k

theorem find?_finishReaps (st : Store) (k : Bytes × ℤ) : st.finishReaps.messages.find? k =
    if st.metaTable.find? (.reap k.1) ≠ none then none else st.messages.find? k := by
  refine find?_delete_key st.messages (P := fun k => st.metaTable.find? (.reap k.1) ≠ none) (fun m => ?_) k
  rw [← decide_eq_decide.mpr reapNames_iff, List.contains_eq_mem]

theorem find?_trimDedup {k : Bytes × ℤ} :
    (∀ m', (st.trimDedup nowMs).messages.find? k = some m' → ∃ m, st.messages.find? k = some m ∧ m'.Remains m) ∧
      (st.messages.find? k ≠ none → (st.trimDedup nowMs).messages.find? k ≠ none) := by
  simp only [Store.trimDedup, find?_update]
  refine ⟨fun m' h => ?_, fun h hn => h (Option.map_eq_none_iff.mp hn)⟩
  obtain ⟨m, hm, rfl⟩ := Option.map_eq_some_iff.mp h
  refine ⟨m, hm, ?_⟩
  split
  · exact .inr rfl
  · exact .inl rfl

/-- Neither half of the recovery changes what an unmarked stream weighs. -/
theorem tally_recovered {s : Bytes} (h : st.metaTable.find? (.reap s) = none) :
    (st.trimDedup nowMs).finishReaps.tally s = st.tally s := by
  have hs : s ∉ (st.trimDedup nowMs).reapNames := fun hs => reapNames_iff.mp hs h
  have hdel := tally_delete MessageRow.size (st.trimDedup nowMs).messages (fun m => m.stream == s) fun m =>
    (st.trimDedup nowMs).reapNames.contains m.stream
  rw [List.filter_eq_nil_iff.mpr fun m hm => ?_, tally_nil, sub_zero] at hdel
  · refine hdel.trans ?_
    rw [Store.trimDedup, tally_update MessageRow.size]
    · rfl
    · exact fun _ => rfl
    · exact fun _ => rfl
  · obtain ⟨-, rfl⟩ := mem_messagesOf.mp hm
    simpa using hs

theorem recover_run (h : recover env st = .ok (u, st')) : Restarted env st st' := by
  simp only [recover, run_bind, run_get_bind, run_set_bind, run_modify, insertEvent_run] at h
  obtain ⟨_, _, rfl, rfl⟩ := h
  refine ⟨rfl, rfl, rfl, rfl, find?_reclaimLeases st env, fun k m' hm' => ?_,
    fun k hk hm => ?_, fun k hk => ?_, fun s hs => tally_recovered hs, fun name => ?_, fun k hk => ?_, rfl⟩
  · have hm' := (find?_finishReaps _ k).symm.trans hm'
    split at hm'
    · cases hm'
    · exact find?_trimDedup.1 m' hm'
  · refine fun hn => ?_
    have hn := (find?_finishReaps _ k).symm.trans hn
    split at hn
    · rename_i hmark; exact hmark hk
    · exact find?_trimDedup.2 hm hn
  · exact (find?_finishReaps _ k).trans (if_pos hk)
  · refine (find?_delete _ _ _).trans ?_
    rw [Option.filter_eq_none_iff]
    intro row hrow
    simp [reapName_reap.mpr ⟨name, find?_key hrow⟩]
  · refine (find?_delete _ _ _).trans ?_
    show (st.metaTable.find? k).filter _ = st.metaTable.find? k
    cases hrow : st.metaTable.find? k with
    | none => rfl
    | some row =>
      have hnot : row.reapName.isSome = false := by
        rw [← Bool.not_eq_true, reapName_reap]
        rintro ⟨name, hname⟩
        exact hk name ((find?_key hrow).symm.trans hname)
      simpa using hnot

theorem restart_run {unclean : Option Bytes} (h : restart env unclean st = .ok (u, st')) : Restarted env st st' := by
  cases unclean with
  | none => exact recover_run h
  | some reason =>
    simp only [restart, run_bind] at h
    obtain ⟨_, _, h₁, h⟩ := h
    obtain rfl := insertEvent_run.mp h₁
    exact { recover_run h with }

end Messq

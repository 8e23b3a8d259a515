import Messq.Effect.Request

/-! # What a retention sweep takes

A sweep plans for each stream, on the store as it finds it, which of the oldest messages leave (`Store.plan`). What the
plan names and no delivery row does is gone afterwards, and nothing else is (`retention_messagesOf`). -/

namespace Messq

open Lib Table Relation

variable {r res : RetentionResult} {nowMs : ℤ} {counts : ℤ × ℤ} {m : MessageRow} {stats : Option StatsRow}
  {row : StreamRow} {batch : ℕ}

/-- The counters of a stream. -/
def Store.counters (st : Store) (s : Bytes) : ℤ × ℤ := ((st.streamStats.find? s).map StatsRow.counts).getD 0

def Request.retains : Request → Bool
  | .retention _ => true
  | _ => false

/-- No stored message has a negative size. -/
def Store.Weighed (st : Store) : Prop := ∀ m ∈ st.messages, 0 ≤ m.size

/-! ## The plan of one stream -/

section Stream

variable {st : Store}

/-- The candidate of a message. -/
def Store.candidate (st : Store) (s : Bytes) (m : MessageRow) : Candidate :=
  ⟨m.seq, m.size, m.publishedAt, st.pinned s m.seq⟩

/-- The messages of a stream, oldest first. -/
def Store.oldest (st : Store) (s : Bytes) : List MessageRow := (st.messagesOf s).insertionSort fun a b => a.seq ≤ b.seq

theorem retentionCandidates_limits (hr : row.retention = .limits) (window : ℕ) :
    st.retentionCandidates row window = some (((st.oldest row.name).take window).map (st.candidate row.name)) := by
  simp only [Store.retentionCandidates, hr]
  rfl

theorem perm_oldest (st : Store) (s : Bytes) : (st.oldest s).Perm (st.messagesOf s) := List.perm_insertionSort _ _

theorem sorted_oldest (st : Store) (s : Bytes) : (st.oldest s).Pairwise fun a b => a.seq < b.seq :=
  strict_orderBy MessageRow.seq st.messages.nodup_select fun _ ha _ hb he => seq_inj_messagesOf ha hb he

theorem mem_oldest : m ∈ st.oldest s ↔ m ∈ st.messages ∧ m.stream = s :=
  (perm_oldest st s).mem_iff.trans mem_messagesOf

/-- The numbers that a sweep at `nowMs` plans to take of a stream it finds at `counts`. -/
def Store.plan (st : Store) (row : StreamRow) (counts : ℤ × ℤ) (nowMs : ℤ) (batch : ℕ) : List ℤ :=
  match st.retentionCandidates row (batch * 2 + maxBlameHolders) with
  | none => []
  | some cands => (match row.retention with
    | .limits => planEviction cands ⟨row.maxMsgs, row.maxBytes, row.maxAgeMs, counts.1, counts.2, nowMs⟩ batch
    | .workqueue => planWorkqueue cands batch).seqs

/-- The sweep takes the message. -/
def Store.evicts (st : Store) (row : StreamRow) (counts : ℤ × ℤ) (nowMs : ℤ) (batch : ℕ) (m : MessageRow) : Bool :=
  st.evictable row.name (st.plan row counts nowMs batch) m

end Stream

/-! ## The sweep -/

section Sweep

variable {env : Env} {st st' : Store} {s : Bytes}

/-- Statements that leave the messages alone. -/
theorem commitEvents_messages {es : List Event} {u : Unit} (h : commitEvents es st = .ok (u, st')) :
    st'.messages = st.messages := by
  induction es generalizing st with
  | nil =>
    obtain ⟨-, rfl⟩ := run_pure.mp h
    rfl
  | cons e es ih =>
    simp only [commitEvents, run_bind] at h
    obtain ⟨_, st₁, h₁, h₂⟩ := h
    rw [ih h₂, ← commitEvent_run.mp h₁]

theorem applyEviction_messages {view : RetentionView} {plan : EvictionPlan}
    (h : applyEviction env row view batch plan res st = .ok (r, st')) :
    st'.messages = st.messages.delete (st.evictable row.name plan.seqs) := by
  unfold applyEviction at h
  obtain ⟨⟨del, freed⟩, st₁, h₁, h⟩ := run_bind.mp h
  obtain ⟨u, st₂, h₂, h⟩ := when_run h
  obtain ⟨u', st₃, h₃, h⟩ := when_run h
  have hdel : st₂.messages = st.messages.delete (st.evictable row.name plan.seqs) := by
    rw [evict_run h₁ h₂]
    rfl
  have hlog : st₃.messages = st₂.messages := by
    rw [run_ite] at h₃
    split at h₃
    · rw [← commitEvent_run.mp h₃]
    · rw [(run_pure.mp h₃).2]
  have hrest : st'.messages = st₃.messages := by
    dsimp only at h
    rw [run_ite] at h
    split at h
    · simp only [run_bind, run_get_bind, run_pure] at h
      obtain ⟨_, _, h₄, -, rfl⟩ := h
      exact commitEvents_messages h₄
    · rw [(run_pure.mp h).2]
  rw [hrest, hlog, hdel]

/-- One stream: what its plan takes is deleted. -/
theorem retainStream_messages (h : retainStream env batch row stats res st = .ok (r, st')) :
    st'.messages = st.messages.delete (st.evicts row ((stats.map StatsRow.counts).getD 0) env.nowMs batch) := by
  simp only [retainStream, run_get_bind] at h
  unfold Store.evicts Store.plan
  cases hc : st.retentionCandidates row (batch * 2 + maxBlameHolders) with
  | none =>
    simp only [hc] at h
    rw [← (run_pure.mp h).2]
    refine eq_of_rows (List.filter_eq_self.mpr fun m _ => ?_).symm
    simp [Store.evictable]
  | some cands =>
    simp only [hc] at h
    rw [applyEviction_messages h]
    cases stats <;> rfl

/-- A part of a store that a sweep of other streams leaves as it was. -/
structure Untouched (s : Bytes) (st st' : Store) : Prop where
  setup : SameSetup st st'
  messagesOf : st'.messagesOf s = st.messagesOf s

theorem Untouched.evicts (h : Untouched row.name st st') :
    st'.evicts row counts nowMs batch m = st.evicts row counts nowMs batch m := by
  have hpin : ∀ q, st'.pinned row.name q = st.pinned row.name q := fun q => by
    rw [Store.pinned, Store.pinned, h.setup.deliveries]
  have hcands : ∀ window, st'.retentionCandidates row window = st.retentionCandidates row window := fun window => by
    simp only [Store.retentionCandidates, h.messagesOf, h.setup.consumers, hpin]
  simp only [Store.evicts, Store.evictable, Store.plan, hcands, hpin]

/-- The messages of a stream after the sweep of one. -/
theorem retainStream_messagesOf (h : retainStream env batch row stats res st = .ok (r, st')) :
    st'.messagesOf s = (st.messagesOf s).filter fun m =>
      !(row.name == s && st.evicts row ((stats.map StatsRow.counts).getD 0) env.nowMs batch m) := by
  rw [Store.messagesOf, retainStream_messages h, Store.messagesOf, Table.select, Table.select, Table.delete,
    List.filter_filter, List.filter_filter]
  refine List.filter_congr fun m _ => ?_
  by_cases hs : m.stream = s
  · subst hs
    cases hr : row.name == m.stream with
    | true => simp [Bool.and_comm]
    | false =>
      have hne : (m.stream == row.name) = false := by
        rw [beq_eq_false_iff_ne] at hr ⊢
        exact Ne.symm hr
      simp [Store.evicts, Store.evictable, hne]
  · have hne : (m.stream == s) = false := by simpa using hs
    simp [hne]

/-- Several streams: each loses what its own plan takes, as the sweep found it. -/
theorem retainStreams_messagesOf {ps : List (StreamRow × Option StatsRow)} (hps : ∀ p ∈ ps, p.1 ∈ st.streams)
    (hnodup : (ps.map fun p => p.1.name).Nodup) (h : retainStreams env batch ps res st = .ok (r, st')) :
    st'.messagesOf s = (st.messagesOf s).filter fun m =>
      !(ps.any fun p => p.1.name == s && st.evicts p.1 ((p.2.map StatsRow.counts).getD 0) env.nowMs batch m) := by
  induction ps generalizing res st with
  | nil =>
    obtain ⟨-, rfl⟩ := run_pure.mp h
    exact (List.filter_eq_self.mpr fun m _ => rfl).symm
  | cons p ps ih =>
    simp only [retainStreams, run_bind] at h
    obtain ⟨res₁, st₁, h₁, h₂⟩ := h
    obtain ⟨hp, hps⟩ := List.forall_mem_cons.mp hps
    rw [List.map_cons, List.nodup_cons] at hnodup
    have hsame := (acts_retainStream hp h₁).sameSetup
    rw [ih (fun q hq => by rw [hsame.streams]; exact hps q hq) hnodup.2 h₂, retainStream_messagesOf h₁,
      List.filter_filter]
    refine List.filter_congr fun m _ => ?_
    rw [List.any_cons, Bool.not_or, Bool.and_comm]
    congr 2
    -- what the first stream lost is not of the streams still to come
    rw [Bool.eq_iff_iff, List.any_eq_true, List.any_eq_true]
    refine exists_congr fun q => and_congr_right fun hq => ?_
    by_cases hqs : q.1.name = s
    · have hne : p.1.name ≠ s := fun he => hnodup.1 (he ▸ hqs ▸ List.mem_map_of_mem (f := fun p => p.1.name) hq)
      have hun : Untouched q.1.name st st₁ := ⟨hsame, by
        rw [retainStream_messagesOf h₁, hqs]
        exact List.filter_eq_self.mpr fun m _ => by simp [hne]⟩
      rw [hun.evicts]
    · simp [hqs]

/-- **Sweep.** Each stream loses what its plan takes of the store that the sweep found. -/
theorem retention_messagesOf (h : retention env batch st = .ok (r, st')) :
    st'.messagesOf s = (st.messagesOf s).filter fun m =>
      !((st.streams.find? s).any fun row => st.evicts row (st.counters s) env.nowMs batch m) := by
  simp only [retention, run_get_bind] at h
  have hmem : ∀ row, row ∈ (st.streams.rows.insertionSort fun a b => a.name ≤ b.name) ↔ row ∈ st.streams := fun row =>
    List.mem_insertionSort _
  have hps : ∀ p ∈ (st.streams.rows.insertionSort fun a b => a.name ≤ b.name).map
      fun row => (row, st.streamStats.find? row.name), p.1 ∈ st.streams := fun p hp => by
    obtain ⟨row, hrow, rfl⟩ := List.mem_map.mp hp
    exact (hmem row).mp hrow
  rw [retainStreams_messagesOf hps ?_ h]
  · refine List.filter_congr fun m _ => congrArg _ (Bool.eq_iff_iff.mpr ?_)
    rw [List.any_map, List.any_eq_true, Option.any_eq_true]
    constructor
    · rintro ⟨row, hrow, he⟩
      rw [Function.comp, Bool.and_eq_true, beq_iff_eq] at he
      obtain ⟨rfl, he⟩ := he
      exact ⟨row, find?_of_mem ((hmem row).mp hrow), he⟩
    · rintro ⟨row, hrow, he⟩
      obtain rfl : row.name = s := find?_key hrow
      refine ⟨row, (hmem row).mpr (mem_of_find? hrow), ?_⟩
      rw [Function.comp, Bool.and_eq_true, beq_iff_eq]
      exact ⟨rfl, he⟩
  · rw [List.map_map]
    exact ((List.perm_insertionSort _ st.streams.rows).map StreamRow.name).nodup_iff.mpr st.streams.nodup

/-- What a sweep leaves was there before. -/
theorem retention_subset (h : retention env batch st = .ok (r, st')) : ∀ m ∈ st'.messages, m ∈ st.messages := by
  intro m hm
  have hof : m ∈ st'.messagesOf m.stream := mem_messagesOf.mpr ⟨hm, rfl⟩
  rw [retention_messagesOf h] at hof
  exact (mem_messagesOf.mp (List.mem_of_mem_filter hof)).1

end Sweep

end Messq

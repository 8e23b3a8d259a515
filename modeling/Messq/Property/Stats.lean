import Messq.Backed
import Messq.Lib.Tally

/-! # Stream statistics

`stream_stats` counts the messages of each stream and their size. Five commands move the counters by hand, and each
moves them as the messages move (`InStep`); only the commands that create or delete a stream write a row of their own.
The messages of a deleted stream wait for their reap and are not counted (`Store.Counted`). -/

namespace Messq

open Lib Table Relation

variable {name stream : Bytes} {env : Env} {e : Event} {kind : Kind} {m : MessageRow} {msgs : Table MessageRow.key}

structure Store.Counted (st : Store) : Prop where
  exact : ∀ s r, st.streamStats.find? s = some r → r.counts = st.tally s
  /-- What allocates numbers is counted. -/
  paired : ∀ s, st.streams.find? s ≠ none ∨ st.streamSeq.find? s ≠ none → st.streamStats.find? s ≠ none
  marked : ∀ s, st.metaTable.find? (.reap s) ≠ none → st.streamStats.find? s = none

theorem counted_empty : ({} : Store).Counted where
  exact _ _ h := nomatch h
  paired _ h := h.elim (absurd rfl) (absurd rfl)
  marked _ h := absurd rfl h

/-! ## Background requests -/

section Acts

variable {st st' : Store}

/-- A name that is neither counted nor marked has no messages. -/
theorem Store.Counted.tally_eq_zero (h : st.Counted) (hs : st.Sound) {s : Bytes} (hn : st.streamStats.find? s = none)
    (hu : st.metaTable.find? (.reap s) = none) : st.tally s = 0 := by
  have hnil : st.messagesOf s = [] := by
    refine List.eq_nil_iff_forall_not_mem.mpr fun m hm => ?_
    obtain ⟨hmem, rfl⟩ := mem_messagesOf.mp hm
    obtain ⟨row, hrow, -⟩ := hs.stored m.stream m.seq hu (by simp [stored_of_mem hmem])
    exact h.paired _ (.inr (by simp [hrow])) hn
  rw [Store.tally, hnil, tally_nil]

theorem Store.Counted.inStep (h : st.Counted) (hi : InStep st st')
    (hp : ∀ s, st'.streams.find? s ≠ none ∨ st'.streamSeq.find? s ≠ none →
      st.streams.find? s ≠ none ∨ st.streamSeq.find? s ≠ none)
    (hr : ∀ s, st'.metaTable.find? (.reap s) ≠ none → st.metaTable.find? (.reap s) ≠ none) : st'.Counted where
  exact s r' hr' := by
    have hi := hi s
    rw [hr'] at hi
    cases hrow : st.streamStats.find? s with
    | none =>
      rw [hrow] at hi
      cases hi
    | some r =>
      rw [hrow] at hi
      cases hi with
      | some hi =>
        rw [h.exact s r hrow] at hi
        simpa using hi
  paired s hs := mt (hi.none_iff s).mp (h.paired s (hp s hs))
  marked s hk := (hi.none_iff s).mpr (h.marked s (hr s hk))

/-- Counters that stay, beside messages that weigh the same. -/
theorem inStep_of_tally (hs : st'.streamStats = st.streamStats)
    (ht : ∀ s, st.streamStats.find? s ≠ none → st'.tally s = st.tally s) : InStep st st' := by
  intro s
  rw [hs]
  cases hr : st.streamStats.find? s with
  | none => exact .none
  | some r => exact .some (by rw [ht s (by simp [hr]), sub_self, sub_self])

theorem inStep_appended (hi : st.messages.insert m = some msgs) : InStep st (st.appended m msgs e) := by
  have htally : ∀ s, (st.appended m msgs e).tally s = st.tally s + if s = m.stream then (1, m.size)
      else 0 := fun s => by
    refine (tally_insert MessageRow.size hi fun m => m.stream == s).trans ?_
    simp only [beq_iff_eq, @eq_comm _ m.stream s]
    rfl
  exact inStep_of_update (by exact fun _ _ => rfl) rfl (fun r => rfl) htally

theorem counted_appended {row : SeqRow} (h : st.Counted) (hr : st.streamSeq.find? m.stream = some row)
    (hi : st.messages.insert m = some msgs) : (st.appended m msgs e).Counted := by
  refine h.inStep (inStep_appended hi) (fun s => Or.imp_right fun hs => ?_) fun _ h => h
  have hseq : (st.appended m msgs e).streamSeq.find? s = _ := find?_takeSeq hr s
  rw [hseq] at hs
  split at hs
  · rename_i he
    simp [he, hr]
  · exact hs

/-- The lazy creation of a dead-letter stream whose name is not marked. -/
theorem counted_ensured {dlq origin : Bytes} (h : st.Counted) (hs : st.Sound)
    (hu : st.metaTable.find? (.reap dlq) = none) : (st.ensured env dlq origin).Counted := by
  have hstats : ∀ s, (st.ensured env dlq origin).streamStats.find? s =
      if s = dlq then some ((st.streamStats.find? dlq).getD ⟨dlq, 0, 0, 0, 0⟩) else st.streamStats.find? s :=
    find?_insertIgnore st.streamStats ⟨dlq, 0, 0, 0, 0⟩
  have hstreams : ∀ s, s ≠ dlq → (st.ensured env dlq origin).streams.find? s = st.streams.find? s := fun s he =>
    (find?_insertIgnore st.streams (dlqRow env.opts.dlq dlq env.nowMs) s).trans (if_neg he)
  have hseq : ∀ s, s ≠ dlq → (st.ensured env dlq origin).streamSeq.find? s = st.streamSeq.find? s := fun s he =>
    (find?_insertIgnore st.streamSeq ⟨dlq, 1⟩ s).trans (if_neg he)
  refine ⟨fun s r hr => ?_, fun s hp => ?_, fun s hk => ?_⟩
  · show r.counts = st.tally s
    rw [hstats] at hr
    split at hr
    · rename_i he
      subst he
      cases hrow : st.streamStats.find? s with
      | none =>
        rw [hrow] at hr
        cases hr
        exact (h.tally_eq_zero hs hrow hu).symm
      | some r₀ =>
        rw [hrow] at hr
        cases hr
        exact h.exact s _ hrow
    · exact h.exact s r hr
  · rw [hstats]
    split
    · simp
    · rename_i he
      rw [hstreams s he, hseq s he] at hp
      exact h.paired s hp
  · have hne : s ≠ dlq := by
      rintro rfl
      exact hk hu
    rw [hstats, if_neg hne]
    exact h.marked s hk

/-- The dead-letter streams that took messages since `st` were not being reaped. -/
def Store.SeedsUnmarked (st st' : Store) : Prop :=
  ∀ r ∈ st.advanced st', isDLQ r.stream = true → st.metaTable.find? (.reap r.stream) = none

theorem Background.seedsUnmarked {st₁ st₂ st₃ : Store} (h : Background st st₁) (h₂ : Background st₂ st₃)
    (hf : st.SeedsUnmarked st₃) : st₁.SeedsUnmarked st₂ := by
  intro r hr hd
  obtain ⟨r', hr', hk⟩ := h.advanced h₂ hr
  rw [h.metaTable, ← hk]
  exact hf r' hr' (by rwa [hk])

theorem Buried.counted {d : DeadCtx} (h : Buried env d st st') (hc : st.Counted) (hs : st.Sound)
    (hf : st.SeedsUnmarked st') : st'.Counted := by
  cases h with
  | report policy outcome ho => exact hc.inStep (inStep_of_tally rfl fun _ _ => rfl) (fun _ h => h) fun _ h => h
  | copy c origin m row msgs trimmed truncated hcons hp ho hm hr hq hi =>
    have hko := find?_key ho
    have hms : m.stream = dlqName d.stream := hm.stream.trans (congrArg dlqName (Prod.mk.inj hko).1)
    have hseq : (st.ensured env (dlqName d.stream) d.stream).streamSeq.find? m.stream = some row := by
      rw [hms]; exact hr
    have hu := hf _ (advanced_copied hseq)
    rw [hms] at hu
    have hu := hu (isDLQ_dlqName _)
    exact counted_appended (counted_ensured hc hs hu) hseq hi

/-- Whatever retention takes is counted out, on a stream that is counted. -/
theorem inStep_evicted {seqs : List ℤ} {high nowMs : ℤ} (h : st.Counted) (hs : st.Sound)
    (hhigh : ∀ q ∈ seqs, q ≤ high) :
    InStep st (st.evicted stream seqs high nowMs) := by
  by_cases hmoved : ((st.messages.select (st.evictable stream seqs)).length : ℤ) > 0 ∧ high > 0
  · have hstats : (st.evicted stream seqs high nowMs).streamStats = _ := if_pos hmoved
    exact inStep_deleted _ (fun m hm => (evictable_iff.mp hm).1) rfl hstats fun r => rfl
  · refine inStep_of_tally (if_neg hmoved) fun s hn => ?_
    rw [tally_deleted (fun m hm => (evictable_iff.mp hm).1) rfl s]
    split
    · rename_i he
      subst he
      -- the numbers of a counted stream are positive, so nothing was taken
      have hu : st.metaTable.find? (.reap s) = none := by
        by_contra hk
        exact hn (h.marked s hk)
      have hnil : st.messages.select (st.evictable s seqs) = [] := by
        refine List.eq_nil_iff_forall_not_mem.mpr fun m hm => hmoved ⟨by exact_mod_cast List.length_pos_of_mem hm, ?_⟩
        obtain ⟨hmem, hm⟩ := mem_select.mp hm
        obtain ⟨rfl, hq, -⟩ := evictable_iff.mp hm
        obtain ⟨-, -, h1, -⟩ := hs.stored m.stream m.seq hu (by simp [stored_of_mem hmem])
        have := hhigh _ hq
        omega
      rw [hnil, tally_nil, neg_zero, add_zero]
    · rw [add_zero]

theorem Act.counted (h : Act env kind st st') (hc : st.Counted) (hs : st.Sound)
    (hf : kind = .delivery → st.SeedsUnmarked st') : st'.Counted := by
  cases h with
  | log | lapse | limit | extend | release | ack | trim =>
    exact hc.inStep (inStep_of_tally rfl fun _ _ => rfl) (fun _ h => h) fun _ h => h
  | die _ st₁ ctx d t hb =>
    exact (hb.counted hc hs (hf rfl)).inStep (inStep_of_tally rfl fun _ _ => rfl) (fun _ h => h) fun _ h => h
  | store _ m row msgs e hr hq hi => exact counted_appended hc hr hi
  | evict _ row seqs high hr hq => exact hc.inStep (inStep_evicted hc hs hq) (fun _ h => h) fun _ h => h
  | tune _ streams hstreams =>
    refine hc.inStep (inStep_of_tally rfl fun _ _ => rfl) (fun s => Or.imp_left fun h => ?_) fun _ h => h
    have hsome := hstreams s
    rwa [Ne, ← Option.isNone_iff_eq_none, ← Option.not_isSome, ← hsome, Option.not_isSome, Option.isNone_iff_eq_none]
  | redact _ p =>
    refine hc.inStep (inStep_of_tally rfl fun s _ => ?_) (fun _ h => h) fun _ h => h
    exact tally_update MessageRow.size st.messages (by exact fun _ _ => rfl) (fun _ => rfl) fun _ => rfl

theorem Acts.counted (h : Acts env kind st st') (hc : st.Counted) (hs : st.Sound)
    (hf : kind = .delivery → st.SeedsUnmarked st') : st'.Counted := by
  induction h with
  | refl => exact hc
  | tail h₁ ha ih =>
    have hbefore := (Acts.moves h₁).background
    have hafter := (Acts.moves (.single ha)).background
    exact ha.counted (ih fun hk => (Background.refl st).seedsUnmarked hafter (hf hk)) (Acts.sound h₁ hs)
      fun hk => hbefore.seedsUnmarked (.refl _) (hf hk)

end Acts

/-! ## Every request -/

section Effects

variable {st st' : Store}

theorem StreamCreated.counted {row : StreamRow} (h : StreamCreated st row st') (hc : st.Counted) (hs : st.Sound) :
    st'.Counted := by
  obtain ⟨next, -, hseq⟩ := h.seq
  have htally : ∀ s, st'.tally s = st.tally s := fun s => by rw [Store.tally, Store.messagesOf, h.messages]; rfl
  refine ⟨fun s r hr => ?_, fun s hp => ?_, fun s hk => ?_⟩
  · rw [h.stats] at hr
    rw [htally]
    split at hr
    · rename_i he
      cases hr
      have hnone : st.streamStats.find? row.name = none := by
        by_contra hn
        exact hs.stats row.name hn h.fresh
      rw [he, hc.tally_eq_zero hs hnone h.unmarked]
      rfl
    · exact hc.exact s r hr
  · rw [h.stats]
    split
    · simp
    · rename_i he
      rw [hseq, h.streams, if_neg he, if_neg he] at hp
      exact hc.paired s hp
  · rw [h.metaTable] at hk
    have hne : s ≠ row.name := by
      rintro rfl
      exact hk h.unmarked
    rw [h.stats, if_neg hne]
    exact hc.marked s hk

theorem StreamDeleted.counted (h : StreamDeleted st name st') (hc : st.Counted) : st'.Counted := by
  refine ⟨fun s r hr => ?_, fun s hp => ?_, fun s hk => ?_⟩
  · rw [h.stats] at hr
    split at hr
    · cases hr
    · rw [hc.exact s r hr, Store.tally, Store.tally, Store.messagesOf, Store.messagesOf, h.messages]
  · rw [h.seq, h.streams] at hp
    rw [h.stats]
    split at hp
    · simp at hp
    · rename_i he
      rw [if_neg he]
      exact hc.paired s hp
  · rw [h.stats]
    split
    · rfl
    · rename_i he
      rw [h.other _ (by simpa using he) (by simp)] at hk
      exact hc.marked s hk

/-- What a reap takes of a marked name is not counted. -/
theorem Reaped.counted (h : Reaped st name st') (hc : st.Counted) (hm : st.metaTable.find? (.reap name) ≠ none) :
    st'.Counted := by
  refine hc.inStep (inStep_of_tally h.stats fun s hn => ?_) (fun s hp => ?_) fun s hk => ?_
  · have hne : s ≠ name := by
      rintro rfl
      exact hn (hc.marked s hm)
    exact tally_congr MessageRow.size (P := fun k => k.1 = s) (fun m => beq_iff_eq) fun k hk =>
      h.elsewhere k (by rw [hk]; exact hne)
  · rwa [h.streams, h.seq] at hp
  · rcases h.metaTable with hmeta | ⟨hmeta, -⟩
    · rwa [hmeta] at hk
    · rw [hmeta] at hk
      split at hk
      · exact absurd rfl hk
      · exact hk

theorem Restarted.counted (h : Restarted env st st') (hc : st.Counted) : st'.Counted := by
  refine hc.inStep (inStep_of_tally h.stats fun s hn => h.tally s ?_) (fun s hp => ?_) fun s hk => absurd
    (h.cleared s) hk
  · by_contra hk
    exact hn (hc.marked s hk)
  · rwa [h.streams, h.seq] at hp

theorem Confined.counted {pair : Bytes × Bytes} (h : Confined st pair st') (hc : st.Counted) : st'.Counted :=
  hc.inStep (inStep_of_tally h.stats fun s _ => by rw [Store.tally, Store.messagesOf, h.messages]; rfl)
    (fun s hp => by rwa [h.streams, h.seq] at hp) fun s hk => by rwa [h.reap] at hk

theorem Purged.counted {hit : ℤ → Prop} (h : Purged st stream hit st') (hc : st.Counted) : st'.Counted :=
  hc.inStep h.stats (fun s hp => by rwa [h.streams, h.seq] at hp) fun s hk => by rwa [h.metaTable] at hk

/-- **Requests.** A committed request keeps the counters exact, if no chunk outlives its marker and no dead-letter
stream is created under one. -/
theorem effect_counted {req : Request} {reply : Reply} (hs : st.Sound) (hc : st.Counted)
    (hm : ∀ name, req = .reapChunk name → st.metaTable.find? (.reap name) ≠ none)
    (hf : req.kind = .delivery → st.SeedsUnmarked st') (h : applyRequest env req st = .ok (reply, st')) :
    st'.Counted := by
  cases (applyRequest_effect h).shape with
  | same => exact hc
  | created he => exact he.counted hc hs
  | deleted he => exact he.counted hc
  | reaped hmark he => exact he.counted hc (hmark.elim (hm _) id)
  | confined he => exact he.counted hc
  | purged he => exact he.counted hc
  | restarted he => exact he.counted hc
  | moved hb => exact (applyRequest_acts hb _ _ _ h).counted hc hs hf

end Effects

/-! ## Runs -/

theorem Store.Counted.uncarried {st : Store} (h : st.Counted) (es : List Event) : { st with carriers := es }.Counted :=
  ⟨h.exact, h.paired, h.marked⟩

/-- **Step.** -/
theorem exec_counted {b : Broker} {s : Step} (hs : b.store.Sound) (hc : b.store.Counted)
    (hm : ∀ name, s.req = .reapChunk name → b.admits s.req = true → b.store.metaTable.find? (.reap name) ≠ none)
    (hf : s.req.kind = .delivery → b.store.SeedsUnmarked (b.exec s).1.store) : (b.exec s).1.store.Counted := by
  rcases exec_cases b s with ⟨reply, st, hcom⟩ | ⟨hst, -⟩
  · rw [hcom.post] at hf ⊢
    have hst : st.Counted := effect_counted (hs.uncarried []) (hc.uncarried [])
      (fun name hreq => hm name hreq hcom.admitted) hf hcom.run
    exact hst.uncarried []
  · rw [hst]
    exact hc

/-- **Exact statistics.** Without a deletion of a stream, every stream has its counters; they are the number and the
total size of its messages, and what has no counters has no messages. -/
theorem stats_exact {h : List Visit} {b : Broker} (r : Runs h b)
    (hd : ∀ v ∈ h, v.act.req.dropsStream = false) (s : Bytes) :
    (∀ row, b.store.streamStats.find? s = some row → row.msgs = (b.store.messagesOf s).length ∧
      row.bytes = ((b.store.messagesOf s).map MessageRow.size).sum) ∧
    (b.store.streams.find? s ≠ none → b.store.streamStats.find? s ≠ none) ∧
    (b.store.streamStats.find? s = none → b.store.messagesOf s = []) := by
  have hcount : b.store.Counted := by
    refine r.invariant_along (C := fun _ v => v.act.req.dropsStream = false) (I := fun _ b => b.store.Counted)
      (upheld_of_forall hd) counted_empty fun h b act r hup hc hv => ?_
    have r : Runs h b := r
    have hset := r.settled hup.forall
    exact exec_counted r.sound hc (fun name hreq hadm => absurd hadm (hset.not_chunk hreq)) fun _ _ _ _ =>
      hset.unmarked _
  refine ⟨fun row hrow => ?_, fun hs => hcount.paired s (.inl hs), fun hn => ?_⟩
  · exact Prod.mk.inj (hcount.exact s row hrow)
  · have hz := hcount.tally_eq_zero r.sound hn ((r.settled hd).unmarked s)
    have hlen : ((b.store.messagesOf s).length : ℤ) = 0 := (Prod.mk.inj hz).1
    exact List.eq_nil_of_length_eq_zero (by exact_mod_cast hlen)

/-- A dead letter, a purge that keeps one message, a restart. -/
def countedLife : List (ℤ × Request) :=
  aSetup 3 ++ [(10, aFetch 1), (11, .settle [anItem .term 1 1 1]),
    (12, .purge aStream { keep := 1 } false []), (13, .restart none)]

theorem stats_exact_countedLife :
    ((playState countedLife).store.streamStats.rows.map fun r => (r.stream, r.msgs)) =
      [(aStream, 1), (dlqName aStream, 1)] ∧
    ∀ row, (playState countedLife).store.streamStats.find? (dlqName aStream) = some row →
      row.msgs = ((playState countedLife).store.messagesOf (dlqName aStream)).length :=
  ⟨by decide +kernel, fun row hrow => ((stats_exact (runs_play countedLife) (by decide +kernel) _).1 row hrow).1⟩

end Messq

import Messq.Backed

/-! # Retention and undelivered work

A delivery row keeps its message, whatever retention and the purges delete (`Runs.backed` and its version here, for runs
without a deletion of a stream). A sweep of a work queue takes a message only when every consumer of the stream is past
it and none holds a row on it (`retention_spares_unresolved`). -/

namespace Messq

open Lib Table Relation

/-- The consumer is done with a number: its cursor is past it, and it holds no row on it. -/
def Store.Resolved (st : Store) (c : ConsumerRow) (q : ℤ) : Prop :=
  q < c.cursorSeq ∧ st.deliveries.find? (c.stream, c.name, q) = none

theorem unpinned {st : Store} {s : Bytes} {q : ℤ} (h : st.pinned s q = false) (n : Bytes) :
    st.deliveries.find? (s, n, q) = none := by
  by_contra hne
  obtain ⟨d, hd⟩ := Option.ne_none_iff_exists'.mp hne
  have hk : d.key = (s, n, q) := find?_key hd
  simp only [DeliveryRow.key, Prod.mk.injEq] at hk
  obtain ⟨rfl, -, rfl⟩ := hk
  rw [pinned_of_mem (mem_of_find? hd)] at h
  cases h

/-- One guarded delete. -/
theorem Act.spares {env : Env} {st st' : Store} (h : Act env .retention st st') {row : StreamRow}
    (hr : row ∈ st.streams)
    (hw : row.retention = .workqueue) {q : ℤ} (hm : st.messages.find? (row.name, q) ≠ none)
    (hn : st'.messages.find? (row.name, q) = none) {c : ConsumerRow} (hc : c ∈ st.consumers)
    (hs : c.stream = row.name) :
    st.Resolved c q := by
  cases h with
  | log => exact absurd hn hm
  | evict _ row' seqs high hr' hq hw' =>
    obtain ⟨m, hm⟩ := Option.ne_none_iff_exists'.mp hm
    have hn : (st.messages.delete (st.evictable row'.name seqs)).find? (row.name, q) = none := hn
    obtain ⟨hstream, hmem, hpin⟩ := evictable_iff.mp (hit_of_deleted hm hn)
    have hk := find?_key hm
    obtain ⟨hms, rfl⟩ := Prod.mk.inj hk
    obtain rfl : row = row' := eq_of_key hr hr' (hms.symm.trans hstream)
    exact ⟨hw' hw c hc hs _ hmem, by rw [hs]; exact unpinned hpin _⟩

/-- **Sweep.** What a retention sweep takes from a work queue is resolved for each of its consumers. -/
theorem Acts.spares {env : Env} {st st' : Store} (h : Acts env .retention st st') {row : StreamRow}
    (hr : row ∈ st.streams)
    (hw : row.retention = .workqueue) {q : ℤ} (hm : st.messages.find? (row.name, q) ≠ none)
    (hn : st'.messages.find? (row.name, q) = none) {c : ConsumerRow} (hc : c ∈ st.consumers)
    (hs : c.stream = row.name) :
    st.Resolved c q := by
  induction h with
  | refl => exact absurd hn hm
  | @tail st₁ st₂ h₁ ha ih =>
    by_cases hn₁ : st₁.messages.find? (row.name, q) = none
    · exact ih hn₁
    · obtain ⟨hstreams, hcons, hdel⟩ := Acts.sameSetup h₁
      have := ha.spares (by rw [hstreams]; exact hr) hw hn₁ hn (by rw [hcons]; exact hc) hs
      rwa [Store.Resolved, hdel] at this

/-- **Retention.** In a run without a deletion of a stream every delivery row has its message with the row's subject,
and a message that retention takes from a work queue is resolved for every consumer of the stream. -/
theorem retention_spares_unresolved {h : List Visit} {b : Broker} (r : Runs h b)
    (hd : ∀ v ∈ h, v.act.req.dropsStream = false) :
    (∀ k d, b.store.deliveries.find? k = some d →
      ∃ m, b.store.messages.find? (k.1, k.2.2) = some m ∧ m.subject = d.subject) ∧
    ∀ v ∈ h, ∀ batch, v.act.req = .retention batch → ∀ row ∈ v.pre.store.streams, row.retention = .workqueue →
      ∀ q, v.pre.store.messages.find? (row.name, q) ≠ none → v.post.store.messages.find? (row.name, q) = none →
      ∀ c ∈ v.pre.store.consumers, c.stream = row.name → v.pre.store.Resolved c q := by
  refine ⟨?_, fun v hv batch hreq row hrow hw q hm hn c hc hs => ?_⟩
  · refine r.invariant_along (C := fun _ v => v.act.req.dropsStream = false) (I := fun _ b => b.store.Backed)
      (upheld_of_forall hd) (fun _ _ hd => nomatch hd) fun h b act r hup hb hv => ?_
    have r : Runs h b := r
    exact exec_backed r.sound hb fun name hreq hadm => absurd hadm ((r.settled hup.forall).not_chunk hreq)
  · obtain ⟨h₁, h₂, -, -, hvis, -⟩ := r.at_mem hv
    rw [hvis] at hn
    rcases exec_cases v.pre v.act with ⟨reply, st, hcom⟩ | ⟨hst, -⟩
    · have hacts : Acts v.act.env v.act.req.kind { v.pre.store with carriers := [] } st :=
        applyRequest_acts (by rw [hreq]; trivial) _ _ _ hcom.run
      rw [hreq] at hacts
      have hn : (v.pre.exec v.act).1.store.messages.find? (row.name, q) = none := hn
      rw [hcom.post] at hn
      exact Acts.spares hacts hrow hw hm hn hc hs
    · exact absurd ((congrArg (fun st => st.messages.find? (row.name, q)) hst).symm.trans hn) hm

/-- A work queue with two messages: the first is acknowledged, the second is claimed. -/
def queueLife : List (ℤ × Request) :=
  (1, .createStream { defaultConfig aStream with retention := .workqueue } []) :: (aSetup 2).tail ++
    [(10, aFetch 2), (11, .settle [anItem .ack 1 1 1]), (12, .retention 0)]

theorem retention_spares_unresolved_queueLife :
    ((playState queueLife).store.messagesOf aStream).map MessageRow.seq = [2] ∧
    ∀ k d, (playState queueLife).store.deliveries.find? k = some d →
      ∃ m, (playState queueLife).store.messages.find? (k.1, k.2.2) = some m ∧ m.subject = d.subject :=
  ⟨by decide +kernel, (retention_spares_unresolved (runs_play queueLife) (by decide +kernel)).1⟩

end Messq

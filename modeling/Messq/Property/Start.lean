import Messq.Run

/-! # Start records

The position a consumer was created with is kept in the `meta` table, under a key that no foreign key ties to the
consumer's row. The consumer commands write and delete the two together (`Confined.start`). The deletion of a stream
takes the rows and leaves the records, and the next creation of such a consumer fails on the key
(`stale_start_latches`). -/

namespace Messq

open Lib Table

variable {name stream actor : Bytes} {env : Env} {f : Fault} {b : Broker} {cfg : ConsumerConfig}
  {start : StartPosition} {s : Step}

/-- A consumer has a start record if and only if it has a row. -/
def Store.StartsMatch (st : Store) : Prop := ∀ k, st.started k = (st.consumers.find? k).isSome

/-- A stream that is deleted has no consumers. -/
def DropsVacant (v : Visit) : Prop :=
  ∀ row ∈ v.pre.store.streamStats, v.post.store.streamStats.find? row.stream = none →
    ∀ c ∈ v.pre.store.consumers, c.stream ≠ row.stream

instance (v : Visit) : Decidable (DropsVacant v) := by unfold DropsVacant; infer_instance

section Effects

variable {st st' : Store}

/-- Requests that leave the start records, and the set of consumers, alone. -/
theorem Store.StartsMatch.congr (h : st.StartsMatch)
    (hm : ∀ s n, st'.metaTable.find? (.cstart s n) = st.metaTable.find? (.cstart s n))
    (hc : ∀ k, (st'.consumers.find? k).isSome = (st.consumers.find? k).isSome) : st'.StartsMatch := fun k => by
  rw [hc, ← h k, Store.started, hm]
  rfl

theorem Confined.startsMatch {pair : Bytes × Bytes} (h : Confined st pair st') (hs : st.StartsMatch) :
    st'.StartsMatch := by
  intro k
  by_cases hk : k = pair
  · rw [hk]
    rcases h.start with h | ⟨hm, hc⟩
    · exact h
    · rw [hm, hc]
      exact hs pair
  · rw [h.consumers k hk, ← hs k, Store.started, h.starts k hk]
    rfl

theorem Reaped.startsMatch (h : Reaped st name st') (hs : st.StartsMatch) : st'.StartsMatch := by
  refine hs.congr (fun s n => ?_) fun k => by rw [h.consumers]
  rcases h.metaTable with hm | ⟨hm, -⟩
  · rw [hm]
  · rw [hm, if_neg (by simp)]

theorem Purged.startsMatch {hit : ℤ → Prop} (h : Purged st stream hit st') (hs : st.StartsMatch) : st'.StartsMatch := by
  refine hs.congr (fun s n => by rw [h.metaTable]) ?_
  rintro ⟨s, n⟩
  by_cases hk : s = stream
  · subst hk
    cases hc : st.consumers.find? (s, n) with
    | none => rw [h.absent n hc]
    | some c =>
      obtain ⟨cursor, gen, hrow, -⟩ := h.row n c hc
      rw [hrow]
      rfl
  · rw [h.elsewhere _ hk]

/-- On a stream without consumers. -/
theorem StreamDeleted.startsMatch (h : StreamDeleted st name st') (hs : st.StartsMatch)
    (hv : ∀ c ∈ st.consumers, c.stream ≠ name) : st'.StartsMatch := by
  refine hs.congr (fun s n => h.other _ (by simp) (by simp)) fun k => ?_
  rw [h.consumers]
  split
  · rename_i hk
    cases hc : st.consumers.find? k with
    | none => rfl
    | some c => exact absurd ((pair_of_find? hc).1.trans hk) (hv c (mem_of_find? hc))
  · rfl

/-- **Requests.** -/
theorem effect_startsMatch {req : Request} {reply : Reply} (he : Effect env st req reply st') (hs : st.StartsMatch)
    (hv : ∀ row ∈ st.streamStats, st'.streamStats.find? row.stream = none → ∀ c ∈ st.consumers, c.stream ≠ row.stream) :
    st'.StartsMatch := by
  cases he.shape with
  | same => exact hs
  | created he => exact hs.congr (fun s n => by rw [he.metaTable]) fun k => by rw [he.consumers]
  | deleted he =>
    obtain ⟨row, hrow⟩ := Option.ne_none_iff_exists'.mp he.existed
    obtain rfl : row.stream = _ := find?_key hrow
    exact he.startsMatch hs (hv row (mem_of_find? hrow) (by rw [he.stats, if_pos rfl]))
  | reaped _ he => exact he.startsMatch hs
  | confined he => exact he.startsMatch hs
  | purged he => exact he.startsMatch hs
  | restarted he => exact hs.congr (fun s n => he.other _ (by simp)) fun k => by rw [he.consumers]
  | moved _ he =>
    exact hs.congr (fun s n => by rw [he.background.metaTable]) fun k => by rw [he.background.consumers]

end Effects

theorem exec_startsMatch (hs : b.store.StartsMatch) (hv : DropsVacant (visit Broker.exec b s)) :
    (b.exec s).1.store.StartsMatch := by
  rcases exec_cases b s with ⟨reply, st, hcom⟩ | ⟨hst, -⟩
  · simp only [DropsVacant, visit, hcom.post] at hv
    have h := effect_startsMatch hcom.effect hs hv
    rw [hcom.post]
    exact h
  · rw [hst]
    exact hs

/-! ## Creation -/

theorem ok_ne_fault {α : Type} {r : α × Store} : (.ok r : Except Err (α × Store)) ≠ .error (.fault f) := by
  intro h
  cases h

theorem refused_ne_fault {α : Type} {r : Refusal} :
    (.error (.refused r) : Except Err (α × Store)) ≠ .error (.fault f) := by
  intro h
  cases h

theorem resolveStartPosition_ne_fault {st : Store} : resolveStartPosition env stream start st ≠ .error (.fault f) := by
  refine bind_ne_error (bind_ne_error nofun fun st₁ _ _ => ?_) fun p _ _ => bind_ne_error nofun fun st₁ _ _ => ?_
  · cases st₁.streamSeq.find? stream <;> exact nofun
  · cases start <;> exact nofun

theorem refuseDuringReap_ne_keyTaken {st : Store} : refuseDuringReap name st ≠ .error (.fault .keyTaken) := by
  refine bind_ne_error nofun fun st₁ _ _ => ?_
  cases (st₁.metaTable.find? (.reap name)).map MetaRow.v with
  | none => exact nofun
  | some v => cases v <;> exact nofun

theorem check_ne_fault {α : Type} {r : Except Refusal α} {st : Store} : Tx.check r st ≠ .error (.fault f) := by
  cases r <;> exact nofun

theorem replaceConsumer_ne_fault {existing : ConsumerRow} {diff : List Field} {st : Store} :
    replaceConsumer env stream existing cfg diff actor st ≠ .error (.fault f) :=
  bind_ne_error check_ne_fault fun _ _ _ => bind_ne_error check_ne_fault fun _ _ _ => nofun

/-- A consumer with neither row nor record is not taken for one that exists. -/
theorem createConsumer_ne_keyTaken {st : Store} (hc : st.consumers.find? (stream, cfg.name) = none)
    (hm : st.metaTable.find? (.cstart stream cfg.name) = none) :
    createConsumer env stream cfg start actor st ≠ .error (.fault .keyTaken) := by
  refine bind_ne_error refuseDuringReap_ne_keyTaken fun _ st₁ h₁ => ?_
  obtain ⟨-, rfl⟩ := refuseDuringReap_run h₁
  refine bind_ne_error ok_ne_fault fun st₂ _ h₂ => ?_
  obtain ⟨rfl, rfl⟩ := run_get.mp h₂
  rw [run_ite]
  split
  · exact refused_ne_fault
  cases st.consumers.rows.find? fun c => c.stream == stream && eqNoCase c.name cfg.name with
  | none =>
    refine bind_ne_error resolveStartPosition_ne_fault fun p st₃ h₃ => ?_
    obtain ⟨rfl, -⟩ := resolveStartPosition_run h₃
    refine bind_ne_error ok_ne_fault fun st₄ _ h₄ => ?_
    obtain ⟨rfl, rfl⟩ := run_get.mp h₄
    refine bind_ne_error ?_ fun cs st₅ h₅ => ?_
    · cases hi : st.consumers.insert (newConsumer stream cfg p.1 env.nowMs) with
      | some cs => exact ok_ne_fault
      | none =>
        obtain ⟨c, hc'⟩ := insert_eq_none.mp hi
        exact absurd (hc.symm.trans hc') (by simp)
    · obtain ⟨-, rfl⟩ := require_run.mp h₅
      refine bind_ne_error ?_ fun _ _ _ => ok_ne_fault
      cases hi : st.metaTable.insert ⟨.cstart stream cfg.name, .start start⟩ with
      | some mt => exact ok_ne_fault
      | none =>
        obtain ⟨row, hrow⟩ := insert_eq_none.mp hi
        exact absurd (hm.symm.trans hrow) (by simp)
  | some existing =>
    refine bind_ne_error (bind_ne_error ok_ne_fault fun st₃ _ _ => ?_) fun _ _ _ => ?_
    · cases (st₃.metaTable.find? (.cstart stream cfg.name)).map MetaRow.v with
      | none => exact ok_ne_fault
      | some v => cases v with
        | int n => exact refused_ne_fault
        | start rec =>
          simp only [run_ite]
          split
          · exact refused_ne_fault
          · exact ok_ne_fault
    · rw [run_ite]
      split
      · exact ok_ne_fault
      · exact replaceConsumer_ne_fault

/-! ## Runs -/

theorem exec_ne_failed (h : command s.env s.req { b.store with carriers := [] } ≠ .error (.fault f)) :
    (b.exec s).2 ≠ .failed f := by
  unfold Broker.exec
  split
  · exact nofun
  · split
    · exact nofun
    · exact nofun
    · rename_i hrun
      rintro ⟨⟩
      exact h hrun

/-- **Start records.** When streams are deleted without consumers only, a start record stands for each consumer and for
nothing else, and creating a consumer that has no row does not fail on a key. -/
theorem starts_match {h : List Visit} {b : Broker} (r : Runs h b) (hv : ∀ v ∈ h, DropsVacant v) :
    (∀ stream consumer, b.store.metaTable.find? (.cstart stream consumer) ≠ none ↔
      b.store.consumers.find? (stream, consumer) ≠ none) ∧
    ∀ env stream cfg start actor, b.store.consumers.find? (stream, cfg.name) = none →
      (b.exec ⟨env, .createConsumer stream cfg start actor⟩).2 ≠ .failed .keyTaken := by
  have hmatch : b.store.StartsMatch :=
    History.invariant (C := fun _ => DropsVacant) (I := fun _ b => b.store.StartsMatch) r (upheld_of_forall hv)
      (fun _ => rfl) fun _ _ _ hs hv => exec_startsMatch hs hv
  have hiff : ∀ stream consumer, b.store.metaTable.find? (.cstart stream consumer) ≠ none ↔
      b.store.consumers.find? (stream, consumer) ≠ none := fun stream consumer => by
    rw [← Option.isSome_iff_ne_none, ← Option.isSome_iff_ne_none, ← hmatch (stream, consumer)]
    rfl
  refine ⟨hiff, fun env stream cfg start actor hc => exec_ne_failed (bind_ne_error ?_ fun _ st hst => map_ne_error ?_)⟩
  · exact check_ne_fault
  · obtain ⟨-, rfl⟩ := check_run.mp hst
    exact createConsumer_ne_keyTaken hc (not_ne_iff.mp (mt (hiff stream cfg.name).mp (not_not.mpr hc)))

/-- The unmarked error a request ended in. -/
def Outcome.fault : Outcome → Option Fault
  | .failed f => some f
  | _ => none

/-- A stream with a consumer is deleted and created again. -/
def staleLife : List (ℤ × Request) :=
  [(1, aCreate),
    (2, aSubscribe),
    (3, .deleteStream aStream aStream []), (4, .reapChunk aStream),
    (5, aCreate)]

/-- The record is still there, so the consumer cannot be created and the broker is read-only from then on. -/
theorem stale_start_latches : Runs (play staleLife) (playState staleLife) ∧
    (playState staleLife).store.consumers.find? (aStream, aConsumer) = none ∧
    (playState staleLife).store.metaTable.find? (.cstart aStream aConsumer) ≠ none ∧
    ((playState staleLife).exec
      ⟨.atMs 6, aSubscribe⟩).2.fault = some .keyTaken :=
  ⟨runs_play _, by decide +kernel⟩

/-- The consumer is deleted before its stream. -/
def tidyLife : List (ℤ × Request) :=
  [(1, aCreate),
    (2, aSubscribe),
    (3, .deleteConsumer aStream aConsumer []), (4, .deleteStream aStream aStream []),
    (5, .reapChunk aStream), (6, aCreate)]

theorem starts_match_tidyLife :
    (playState tidyLife).store.consumers.find? (aStream, aConsumer) = none ∧
    ((playState tidyLife).exec
      ⟨.atMs 7, aSubscribe⟩).2 ≠ .failed .keyTaken :=
  ⟨by decide +kernel,
    (starts_match (runs_play tidyLife) (by decide +kernel)).2 _ _ (defaultConsumerConfig aConsumer) _
      _ (by decide +kernel)⟩

end Messq

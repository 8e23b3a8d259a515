import Messq.Property.Stats

/-! # What a reap takes

A deletion drops the rows of its stream at once and leaves the messages to chunks that run later. Nothing is stored
under the name while its marker is set (`effect_left`), so a chunk takes what the deletion left
(`reap_takes_left_behind`), and what is created under the name afterwards is counted from zero. Two steps break this: a
chunk that runs on after the marker is gone, and the dead-letter sink, which creates its stream without a look at the
marker (`dead_letter_reaped`). -/

namespace Messq

open Lib Table

/-- The requests that delete the messages of deleted streams. -/
def Request.reaps : Request → Bool
  | .reapChunk _ | .reapResume | .restart _ => true
  | _ => false

/-- The visit committed the deletion of a stream. -/
def Visit.deletedStream (v : Visit) (s : Bytes) : Prop :=
  ∃ confirm actor reply es, v.act.req = .deleteStream s confirm actor ∧ v.out = .ok reply es

/-- The dead-letter streams that took copies in the visit were not being reaped. -/
def SeedsUnmarked (v : Visit) : Prop := v.act.req.kind = .delivery → v.pre.store.SeedsUnmarked v.post.store

instance (st st' : Store) : Decidable (st.SeedsUnmarked st') := by unfold Store.SeedsUnmarked; infer_instance

instance (v : Visit) : Decidable (SeedsUnmarked v) := by unfold SeedsUnmarked; infer_instance

/-- A message that was stored when its stream was deleted, and has been since. -/
def LeftBehind (h : List Visit) (k : Bytes × ℤ) : Prop :=
  ∃ h₁ d h₂, h = h₁ ++ d :: h₂ ∧ Visit.deletedStream d k.1 ∧ ∀ u ∈ d :: h₂, u.post.store.messages.find? k ≠ none

theorem LeftBehind.concat {h : List Visit} {k : Bytes × ℤ} {v : Visit} (hl : LeftBehind h k)
    (hv : v.post.store.messages.find? k ≠ none) : LeftBehind (h ++ [v]) k := by
  obtain ⟨h₁, d, h₂, rfl, hd, hall⟩ := hl
  refine ⟨h₁, d, h₂ ++ [v], by simp, hd, fun u hu => ?_⟩
  rw [← List.cons_append] at hu
  rcases List.mem_append.mp hu with hu | hu
  · exact hall u hu
  · obtain rfl := List.mem_singleton.mp hu
    exact hv

/-- Nothing is stored under a name that is marked. -/
theorem effect_left {env : Env} {req : Request} {reply : Reply} {st st' : Store} (he : Effect env st req reply st')
    (hc : st'.Counted) {k : Bytes × ℤ} (hk : st'.metaTable.find? (.reap k.1) ≠ none)
    (hm : st'.messages.find? k ≠ none) :
    st.messages.find? k ≠ none := by
  obtain ⟨m', hm'⟩ := Option.ne_none_iff_exists'.mp hm
  have hsub : (∃ m, st.messages.find? k = some m) → st.messages.find? k ≠ none := fun ⟨m, h⟩ => by simp [h]
  cases he.shape with
  | same => exact hm
  | created he => rwa [he.messages] at hm
  | deleted he => rwa [he.messages] at hm
  | reaped _ he => exact hsub ⟨m', he.messages k m' hm'⟩
  | confined he => rwa [he.messages] at hm
  | purged he => exact hsub ⟨m', ((he.messages k m').mp hm').1⟩
  | restarted he =>
    obtain ⟨m, hm₀, -⟩ := he.messages k m' hm'
    exact hsub ⟨m, hm₀⟩
  | moved _ he =>
    rcases he.background.stored k.1 k.2 m' hm' with ⟨m, hm₀, -⟩ | ha
    · exact hsub ⟨m, hm₀⟩
    · -- a number was allocated, so the stream is counted, but a marked name is not
      obtain ⟨row, hrow, -⟩ := ha.below
      exact absurd (hc.marked _ hk) (hc.paired _ (.inr (by simp [hrow])))

/-- Every message of a marked name was left behind by the deletion. -/
def Doomed (h : List Visit) (b : Broker) : Prop :=
  ∀ k, b.store.metaTable.find? (.reap k.1) ≠ none → b.store.messages.find? k ≠ none → LeftBehind h k

theorem Doomed.step {h : List Visit} {b : Broker} {s : Step} (hd : Doomed h b) (hc : (b.exec s).1.store.Counted) :
    Doomed (h ++ [visit Broker.exec b s]) (b.exec s).1 := by
  intro k hk hm
  rcases exec_cases b s with ⟨reply, st, hcom⟩ | ⟨hst, -⟩
  · have hpost : (b.exec s).1.store = { st with carriers := [] } := by rw [hcom.post]
    rcases effect_marks hcom.effect (s := k.1) (by rw [hpost] at hk; exact hk) with ⟨confirm, actor, hreq⟩ | hmark
    · refine ⟨h, visit Broker.exec b s, [], rfl, ⟨confirm, actor, _, _, hreq, hcom.out⟩, fun u hu => ?_⟩
      obtain rfl := List.mem_singleton.mp hu
      exact hm
    · refine (hd k hmark (effect_left hcom.effect ?_ (by rw [hpost] at hk; exact hk)
        (by rw [hpost] at hm; exact hm))).concat hm
      rw [hpost] at hc
      exact hc.uncarried st.carriers
  · exact (hd k (by rwa [hst] at hk) (by rwa [hst] at hm)).concat hm

/-- A reap takes from marked names only. -/
theorem marked_of_reaped {b : Broker} {s : Step} (hr : s.req.reaps = true) (hm : ReapsMarked (visit Broker.exec b s))
    {k : Bytes × ℤ} (hk : b.store.messages.find? k ≠ none) (hn : (b.exec s).1.store.messages.find? k = none) :
    b.store.metaTable.find? (.reap k.1) ≠ none := by
  have hn' := hn
  rcases exec_cases b s with ⟨reply, st, hcom⟩ | ⟨hst, -⟩
  · have he := hcom.effect
    have hn : st.messages.find? k = none := by
      rw [hcom.post] at hn
      exact hn
    have hof : ∀ {name}, Reaped { b.store with carriers := [] } name st → k.1 = name := fun h => by
      by_contra hne
      exact hk ((h.elsewhere k hne).symm.trans hn)
    cases hreq : s.req with
    | reapChunk name =>
      rw [hreq] at he
      obtain ⟨m, hm'⟩ := Option.ne_none_iff_exists'.mp hk
      have hkey : m.key = k := find?_key hm'
      rw [hof he]
      refine hm name (by rw [show (visit Broker.exec b s).act = s from rfl, hreq]; rfl) ⟨m, ?_, ?_⟩
      · exact mem_messagesOf.mpr ⟨mem_of_find? hm', (congrArg Prod.fst hkey).trans (hof he)⟩
      · rw [hkey]
        exact hn'
    | reapResume =>
      rw [hreq] at he
      rcases he with rfl | ⟨name, hmark, he⟩
      · exact absurd hn hk
      · rw [hof he]
        exact hmark
    | restart unclean =>
      rw [hreq] at he
      exact fun hu => Restarted.unmarked he k hu hk hn
    | _ => rw [hreq] at hr; cases hr
  · rw [hst] at hn
    exact absurd hn hk

/-- The counters are exact as long as the reaps keep to marked names and the sink to unmarked ones. -/
theorem Runs.counted {h : List Visit} {b : Broker} (r : Runs h b) (hall : ∀ v ∈ h, ReapsMarked v ∧ SeedsUnmarked v) :
    b.store.Counted := by
  refine r.invariant_along (C := fun _ v => ReapsMarked v ∧ SeedsUnmarked v) (I := fun _ b => b.store.Counted)
    (upheld_of_forall hall) counted_empty fun h b act r _ hc hv => ?_
  have r : Runs h b := r
  rcases reapsMarked_cases hv.1 with hm | ⟨es, hsame⟩
  · exact exec_counted r.sound hc (fun name hreq _ => hm name hreq) hv.2
  · rw [hsame]
    exact hc.uncarried es

/-- **Reaps.** A reap takes only messages that were stored when their stream was deleted and ever since, and every
stream that exists is counted exactly. -/
theorem reap_takes_left_behind {h : List Visit} {b : Broker} (r : Runs h b) (hm : ∀ v ∈ h, ReapsMarked v)
    (hf : ∀ v ∈ h, SeedsUnmarked v) :
    (∀ h₁ v h₂, h = h₁ ++ v :: h₂ → v.act.req.reaps = true → ∀ k, v.pre.store.messages.find? k ≠ none →
      v.post.store.messages.find? k = none → LeftBehind h₁ k) ∧
    ∀ s row, b.store.streamStats.find? s = some row → row.msgs = (b.store.messagesOf s).length ∧
      row.bytes = ((b.store.messagesOf s).map MessageRow.size).sum := by
  have hall : ∀ v ∈ h, ReapsMarked v ∧ SeedsUnmarked v := fun v hv => ⟨hm v hv, hf v hv⟩
  refine ⟨?_, fun s row hrow => Prod.mk.inj ((r.counted hall).exact s row hrow)⟩
  rintro h₁ v h₂ rfl hr k hk hn
  obtain ⟨r₁, hvis, -⟩ := r.at_visit
  have hd : Doomed h₁ v.pre := by
    refine r₁.invariant_along (C := fun _ v => ReapsMarked v ∧ SeedsUnmarked v) (I := Doomed)
      (upheld_of_forall fun u hu => hall u (by simp [hu])) (fun k hk => absurd rfl hk) fun h b act r hup hd hv => ?_
    have r' : Runs (h ++ [visit Broker.exec b act]) (b.exec act).1 := History.step act r
    refine hd.step (r'.counted fun u hu => ?_)
    rcases List.mem_append.mp hu with hu | hu
    · exact hup.forall u hu
    · rwa [List.mem_singleton.mp hu]
  have hmv := hm v (by simp)
  rw [hvis] at hmv hn
  exact hd k (marked_of_reaped hr hmv hk hn) hk

/-! ## A dead letter under the marker -/

/-- The dead-letter stream is deleted, and before its first chunk a delivery dies. -/
def reapedLife : List (ℤ × Request) :=
  aSetup 2 ++ [(10, aFetch 2), (11, .settle [anItem .term 1 1 1]),
    (12, .purge (dlqName aStream) {} false []), (13, .deleteStream (dlqName aStream) (dlqName aStream) []),
    (14, .settle [anItem .term 2 1 1]), (15, .reapChunk (dlqName aStream))]

/-- The copy was not there when the stream was deleted, and the chunk takes it; the counters still count it. -/
theorem dead_letter_reaped : Runs (play reapedLife) (playState reapedLife) ∧
    ((play reapedLife).drop 7).map (fun v => (v.post.store.messages.find? (dlqName aStream, 1)).isSome) =
      [false, true, false] ∧
    (playState reapedLife).store.streamStats.rows.map (fun r => (r.stream, r.msgs)) =
      [(aStream, 2), (dlqName aStream, 1)] ∧
    (playState reapedLife).store.messagesOf (dlqName aStream) = [] :=
  ⟨runs_play _, by decide +kernel⟩

/-- A stream deleted, reaped and created again. -/
def renamedLife : List (ℤ × Request) :=
  aSetup 2 ++ [(10, .deleteStream aStream aStream []), (11, .reapChunk aStream),
    (12, aCreate), (13, aPublish)]

theorem reap_takes_left_behind_renamedLife :
    ((playState renamedLife).store.messagesOf aStream).map MessageRow.seq = [3] ∧
    ∀ h₁ v h₂, play renamedLife = h₁ ++ v :: h₂ → v.act.req.reaps = true → ∀ k, v.pre.store.messages.find? k ≠ none →
      v.post.store.messages.find? k = none → LeftBehind h₁ k :=
  ⟨by decide +kernel,
    (reap_takes_left_behind (runs_play renamedLife) (by decide +kernel) (by decide +kernel)).1⟩

end Messq

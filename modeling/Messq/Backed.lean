import Messq.Run

/-! # Every delivery has its message

A delivery row names a stored message and carries its subject (`Store.Backed`). Every committed request keeps that
(`effect_backed`), except a reap chunk that runs after the marker of its deletion is gone: it deletes by name and takes
the messages of a stream that was created since; one that finds none does nothing (`reapsMarked_cases`). `ReapsMarked`
rules that chunk out, and `Runs.backed` is the invariant of the runs without it. -/

namespace Messq

open Lib Table

variable {b : Broker} {name : Bytes} {c : ConsumerRow} {d : DeliveryRow} {env : Env} {h : List Visit} {reply : Reply}
  {req : Request} {s : Step}

def Store.Backed (st : Store) : Prop :=
  ∀ k d, st.deliveries.find? k = some d → ∃ m, st.messages.find? (k.1, k.2.2) = some m ∧ m.subject = d.subject

/-- The name a chunk of a deletion works on. -/
def Request.reaped : Request → Option Bytes
  | .reapChunk name => some name
  | _ => none

/-- A reap chunk takes messages only while the marker of its deletion is set. -/
def ReapsMarked (v : Visit) : Prop :=
  ∀ name ∈ v.act.req.reaped, (∃ m ∈ v.pre.store.messagesOf name, v.post.store.messages.find? m.key = none) →
    v.pre.store.metaTable.find? (.reap name) ≠ none

instance (v : Visit) : Decidable (ReapsMarked v) := by unfold ReapsMarked; infer_instance

section Effects

variable {st st' : Store} (hs : st.Sound) (hb : st.Backed)

include hs in
/-- A delivery row lives on a stream that is not being deleted. -/
theorem unmarked_of_row {k : Bytes × Bytes × ℤ} (hd : st.deliveries.find? k = some d) :
    st.metaTable.find? (.reap k.1) = none :=
  (hs.home _ (hs.owner k (by simp [hd]))).2

include hs hb in
theorem Background.backs (h : Background st st') : st'.Backed := by
  intro k d' hd'
  obtain ⟨d, hd, ht⟩ := h.kept k d' hd'
  obtain ⟨m, hm, hsub⟩ := hb k d hd
  have hkey := find?_key hd'
  have hk : (d'.stream, d'.seq) = (k.1, k.2.2) := by rw [← hkey]
  have hstill := h.backed d' (mem_of_find? hd') (by rw [hk, hm]; exact nofun)
  rw [hk] at hstill
  obtain ⟨m', hm'⟩ := Option.ne_none_iff_exists'.mp hstill
  refine ⟨m', hm', ?_⟩
  rcases h.stored _ _ m' hm' with ⟨m₀, hm₀, hsub₀⟩ | ha
  · obtain rfl : m = m₀ := Option.some.inj (hm.symm.trans hm₀)
    rw [hsub₀, hsub, ht.subject]
  · -- the number of a stored message is not allocated again
    obtain ⟨r, hr, -, hlt⟩ := hs.stored _ _ (unmarked_of_row hs hd) (by rw [hm]; exact nofun)
    have := ha.above r hr
    omega

include hs hb in
theorem Reaped.backs (h : Reaped st name st') (hm : st.metaTable.find? (.reap name) ≠ none) : st'.Backed := by
  intro k d hd
  rw [h.deliveries] at hd
  have hne : k.1 ≠ name := by
    rintro rfl
    exact hm (unmarked_of_row hs hd)
  rw [h.elsewhere _ hne]
  exact hb k d hd

include hs hb in
theorem Restarted.backs (h : Restarted env st st') : st'.Backed := by
  intro k d' hd'
  rw [h.deliveries, Option.map_eq_some_iff] at hd'
  obtain ⟨d, hd, rfl⟩ := hd'
  obtain ⟨m, hm, hsub⟩ := hb k d hd
  have hkept := h.unmarked (k.1, k.2.2) (unmarked_of_row hs hd) (by rw [hm]; exact nofun)
  obtain ⟨m', hm'⟩ := Option.ne_none_iff_exists'.mp hkept
  obtain ⟨m₀, hm₀, hsub₀⟩ := h.messages _ m' hm'
  obtain rfl : m = m₀ := Option.some.inj (hm.symm.trans hm₀)
  refine ⟨m', hm', ?_⟩
  rw [hsub₀.subject, hsub]
  split <;> rfl

include hb in
theorem Purged.backs {stream : Bytes} {hit : ℤ → Prop} (h : Purged st stream hit st') : st'.Backed := by
  intro k d hd
  obtain ⟨hd, hout⟩ := (h.deliveries k d).mp hd
  obtain ⟨m, hm, hsub⟩ := hb k d hd
  exact ⟨m, (h.messages _ m).mpr ⟨hm, hout⟩, hsub⟩

include hb in
/-- A command on one consumer has to account for that consumer's rows only. -/
theorem Confined.backs {pair : Bytes × Bytes} (h : Confined st pair st')
    (hpair : ∀ q d, st'.deliveries.find? (pair.1, pair.2, q) = some d →
      ∃ m, st.messages.find? (pair.1, q) = some m ∧ m.subject = d.subject) : st'.Backed := by
  rintro ⟨s, n, q⟩ d hd
  rw [h.messages]
  by_cases hk : (s, n) = pair
  · subst hk
    exact hpair q d hd
  · rw [h.deliveries _ hk] at hd
    exact hb _ d hd

include hb in
/-- Rows between the two halves of a fetch. -/
theorem ToppedUp.backs {st₁ : Store} {next cursor : ℤ} (h : ToppedUp st c next cursor st₁) {q : ℤ}
    (hd : st₁.deliveries.find? (c.stream, c.name, q) = some d) :
    ∃ m, st.messages.find? (c.stream, q) = some m ∧ m.subject = d.subject := by
  rcases h.fresh q d hd with hd | ⟨-, -, m, hm, rfl⟩
  · exact hb _ d hd
  · exact ⟨m, hm, rfl⟩

include hs hb in
theorem Fetched.backs {r : FetchResult} (h : Fetched st env c r st') (hc : st.consumers.find? c.key = some c)
    (hconf : Confined st c.key st') : st'.Backed := by
  obtain ⟨head, st₁, hhead, -, htop, hclaim, -⟩ := h.admitted
  obtain ⟨head', hhead', -, hbound⟩ := hs.bounded (k := c.key) (by simp [hc])
  obtain rfl : head = head' := Option.some.inj (hhead.symm.trans hhead')
  refine hconf.backs hb fun q d hd => ?_
  have hd : st'.deliveries.find? (c.stream, c.name, q) = some d := hd
  rw [hclaim.deliveries] at hd
  split at hd
  · obtain ⟨d₀, hd₀, rfl⟩ := Option.map_eq_some_iff.mp hd
    obtain ⟨m, hm, hsub⟩ := (htop hbound).backs hb hd₀
    exact ⟨m, hm, hsub⟩
  · exact (htop hbound).backs hb hd

end Effects

/-- **Step.** A request keeps every delivery backed, short of a chunk that outlived its marker. -/
theorem effect_backed {st st' : Store} (hs : st.Sound) (hb : st.Backed) (he : Effect env st req reply st')
    (hm : ∀ name, req = .reapChunk name → st.metaTable.find? (.reap name) ≠ none) : st'.Backed := by
  cases he.shape with
  | same => exact hb
  | created h =>
    intro k d hd
    rw [h.deliveries] at hd
    rw [h.messages]
    exact hb k d hd
  | deleted h =>
    intro k d hd
    rw [h.deliveries] at hd
    rw [h.messages]
    split at hd
    · cases hd
    · exact hb k d hd
  | @reaped _ name _ hreq h => exact h.backs hs hb (hreq.elim (hm name) id)
  | confined hconf hrows =>
    rcases hrows with ⟨hf, -⟩ | hrows
    · cases req with
      | fetch stream consumer batch maxBytes =>
        obtain ⟨r, c, -, hc, -, -, -, hconf, ⟨-, rfl⟩ | he⟩ := he
        · exact hb
        · obtain ⟨rfl, rfl⟩ := pair_of_find? hc
          exact he.backs hs hb hc hconf
      | _ => cases hf
    · intro k d hd
      rw [hconf.messages]
      exact hb k d (hrows k d hd)
  | purged h => exact h.backs hb
  | restarted h => exact h.backs hs hb
  | moved _ h => exact h.background.backs hs hb

theorem exec_backed (hs : b.store.Sound) (hb : b.store.Backed)
    (hm : ∀ name, s.req = .reapChunk name → b.admits s.req = true → b.store.metaTable.find? (.reap name) ≠ none) :
    (b.exec s).1.store.Backed := by
  rcases exec_cases b s with ⟨reply, st, hcom⟩ | ⟨hst, -⟩
  · have hb' := effect_backed (hs.uncarried []) hb hcom.effect fun name hreq => hm name hreq hcom.admitted
    rw [hcom.post]
    exact hb'
  · rw [hst]
    exact hb

/-- A chunk without its marker finds no message, and leaves the store. -/
theorem reapsMarked_cases (hv : ReapsMarked (visit Broker.exec b s)) :
    (∀ name, s.req = .reapChunk name → b.store.metaTable.find? (.reap name) ≠ none) ∨
      ∃ es, (b.exec s).1.store = { b.store with carriers := es } := by
  by_contra! hno
  obtain ⟨⟨name, hreq, hnone⟩, hmoved⟩ := hno
  rcases exec_cases b s with ⟨reply, st, hcom⟩ | ⟨hst, -⟩
  · have hrun := hcom.run
    rw [hreq] at hrun
    obtain ⟨res, hrun, -⟩ := run_map.mp hrun
    simp only [reapChunk, run_get_bind, run_set_bind, run_pure] at hrun
    obtain ⟨-, rfl⟩ := hrun
    refine hmoved [] ?_
    have hnil : b.store.messagesOf name = [] := by
      by_contra hne
      obtain ⟨m, ms, hms⟩ := List.exists_cons_of_ne_nil hne
      refine hv name (by rw [show (visit Broker.exec b s).act.req = _ from hreq]; rfl) ⟨m, ?_, ?_⟩ hnone
      · show m ∈ b.store.messagesOf name
        rw [hms]
        exact List.mem_cons_self
      · show (b.exec s).1.store.messages.find? m.key = none
        rw [hcom.post]
        refine (find?_delete_key b.store.messages (P := fun k => k ∈ _) (fun _ => rfl) _).trans (if_pos ?_)
        show m.key ∈ ((b.store.messagesOf name).take deleteChunkRows).map MessageRow.key
        rw [hms]
        exact List.mem_cons_self
    have hmsgs : { b.store with carriers := [] }.messagesOf name = [] := hnil
    rw [hcom.post]
    simp only [hmsgs, List.take_nil, List.map_nil, List.not_mem_nil, decide_false]
    rw [delete_eq_self fun _ _ => rfl, delete_eq_self fun r hr => ?_]
    · simp
    · exact beq_false_of_ne fun hk => find?_eq_none.mp hnone r hr hk
  · exact hmoved b.store.carriers hst

theorem Runs.backed (r : Runs h b) (hm : ∀ v ∈ h, ReapsMarked v) : b.store.Backed := by
  refine (History.invariant (C := fun _ => ReapsMarked) (I := fun _ b => b.store.Sound ∧ b.store.Backed) r
    (upheld_of_forall hm) ⟨sound_empty, fun k d hd => ?_⟩ ?_).2
  · cases hd
  · rintro h b s ⟨hs, hb⟩ hc
    refine ⟨exec_sound hs s, ?_⟩
    rcases reapsMarked_cases hc with hm | ⟨es, hsame⟩
    · exact exec_backed hs hb fun name hreq _ => hm name hreq
    · rw [hsame]
      exact hb

/-! ## Runs without stream deletion -/

def Request.dropsStream : Request → Bool
  | .deleteStream .. => true
  | _ => false

/-- Only a deletion marks a name. -/
theorem effect_marks {st st' : Store} (he : Effect env st req reply st') {s : Bytes}
    (hk : st'.metaTable.find? (.reap s) ≠ none) :
    (∃ confirm actor, req = .deleteStream s confirm actor) ∨ st.metaTable.find? (.reap s) ≠ none := by
  cases he.shape with
  | same => exact .inr hk
  | created h => exact .inr (by rwa [h.metaTable] at hk)
  | @deleted name confirm actor _ h =>
    by_cases hs : s = name
    · exact .inl ⟨confirm, actor, by rw [hs]⟩
    · exact .inr (by rwa [h.other _ (by simpa using hs) (by simp)] at hk)
  | reaped _ h =>
    refine .inr ?_
    rcases h.metaTable with hm | ⟨hm, -⟩
    · rwa [hm] at hk
    · rw [hm] at hk
      split at hk
      · exact absurd rfl hk
      · exact hk
  | confined h => exact .inr (by rwa [h.reap] at hk)
  | purged h => exact .inr (by rwa [h.metaTable] at hk)
  | restarted h => exact absurd (h.cleared s) hk
  | moved _ h => exact .inr (by rwa [h.background.metaTable] at hk)

/-- No deletion is under way. -/
structure Broker.Settled (b : Broker) : Prop where
  idle : b.reaping = []
  unmarked : ∀ s, b.store.metaTable.find? (.reap s) = none

theorem exec_settled (h : b.Settled) (hd : s.req.dropsStream = false) : (b.exec s).1.Settled := by
  rcases exec_cases b s with ⟨reply, st, hcom⟩ | ⟨hst, hreaping, -⟩
  · refine ⟨?_, fun n => ?_⟩
    · rw [hcom.post, h.idle]
      show nextReaping [] s.req reply = []
      unfold nextReaping
      split
      · rfl
      · rename_i hreq
        rw [hreq] at hd
        cases hd
      · split <;> rfl
      · rfl
    · by_contra hk
      rw [hcom.post] at hk
      rcases effect_marks hcom.effect hk with ⟨confirm, actor, hreq⟩ | hk
      · rw [hreq] at hd
        cases hd
      · exact hk (h.unmarked n)
  · exact ⟨hreaping.trans h.idle, by rw [hst]; exact h.unmarked⟩

theorem Runs.settled (r : Runs h b) (hd : ∀ v ∈ h, v.act.req.dropsStream = false) : b.Settled :=
  History.invariant (C := fun _ v => v.act.req.dropsStream = false) (I := fun _ b => b.Settled) r (upheld_of_forall hd)
    ⟨rfl, fun _ => rfl⟩ fun _ _ _ hb hv => exec_settled hb hv

/-- A chunk has no deletion to run for. -/
theorem Broker.Settled.not_chunk (h : b.Settled) (hreq : req = .reapChunk name) : b.admits req ≠ true := by
  rw [hreq]
  simp [Broker.admits, h.idle]

end Messq

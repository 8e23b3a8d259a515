import Messq.Property.Retain
import Messq.Property.Reap
import Messq.Property.Chronicle

/-! # Taking from the front

Numbers are given out one after the other, so what is stored of a stream has no gap (`Store.Solid`) as long as purges
and retention take messages from its front (`FromFront`): a purge by subject may leave an older message, and retention
one that a delivery row holds back. -/

namespace Messq

open Lib Table Relation

variable {s : Bytes} {on : Bytes → Bool} {q : ℤ} {env : Env} {m m' : MessageRow} {row : StreamRow}

/-- From any stored message of the stream on, every number below the counter is stored. -/
def Store.Solid (st : Store) (s : Bytes) : Prop :=
  ∀ q q', st.messages.find? (s, q) ≠ none → q ≤ q' → q' < st.nextOf s → st.messages.find? (s, q') ≠ none

/-- No message is smaller than its body. -/
theorem Store.Sized.weighed {st : Store} (h : st.Sized) : st.Weighed := fun m hm => by
  rw [h m hm]
  exact Int.natCast_nonneg _

/-! ## Requests -/

/-- The requests that take messages out of streams that go on. -/
def Request.prunes : Request → Bool
  | .purge .. | .retention _ => true
  | _ => false

/-- With a message of the streams `on`, every older one of its stream is gone. -/
def Store.TakesFront (on : Bytes → Bool) (st st' : Store) : Prop :=
  ∀ m ∈ st.messages, on m.stream = true → st'.messages.find? m.key = none →
    ∀ m' ∈ st.messages, m'.stream = m.stream → m'.seq ≤ m.seq → st'.messages.find? m'.key = none

/-- Purges and retention take messages only from the front of the streams `on`. -/
def FromFront (on : Bytes → Bool) (v : Visit) : Prop :=
  v.act.req.prunes = true → v.pre.store.TakesFront on v.post.store

instance (on : Bytes → Bool) (v : Visit) : Decidable (FromFront on v) := by
  unfold FromFront Store.TakesFront; infer_instance

section Solid

variable {st st' : Store}

theorem Entries.solid (h : Entries env st st') (hsol : st.Solid s) : st'.Solid s := by
  obtain ⟨xs, -, hd, hq⟩ := h.draws s
  intro q q' hlive hle hlt
  rw [hq] at hlive ⊢
  rcases lt_or_ge q' (st.nextOf s) with hold | hnew
  · refine .inl (hsol q q' (hlive.resolve_right fun hx => ?_) hle hold)
    have := (hd.mem hx).1
    omega
  · exact .inr (hd.mem_of_le hnew hlt)

/-- Where nothing was written, what stays behind a message that stays keeps the rest solid. -/
theorem Store.Solid.thinned (hsol : st.Solid s) (hn : st'.nextOf s = st.nextOf s)
    (hsub : ∀ q, st'.messages.find? (s, q) ≠ none → st.messages.find? (s, q) ≠ none)
    (hfront : ∀ q q', st'.messages.find? (s, q) ≠ none → q ≤ q' → st.messages.find? (s, q') ≠ none →
      st'.messages.find? (s, q') ≠ none) : st'.Solid s := by
  intro q q' hlive hle hlt
  rw [hn] at hlt
  exact hfront q q' hlive hle (hsol q q' (hsub q hlive) hle hlt)

/-- Taking the front leaves what is behind a message that stays. -/
theorem Store.TakesFront.stays (h : st.TakesFront on st') (hon : on s = true)
    (hsub : ∀ q, st'.messages.find? (s, q) ≠ none → st.messages.find? (s, q) ≠ none) (q q' : ℤ)
    (hq : st'.messages.find? (s, q) ≠ none) (hle : q ≤ q') (hq' : st.messages.find? (s, q') ≠ none) :
    st'.messages.find? (s, q') ≠ none := by
  intro hgone
  obtain ⟨m, hm⟩ := Option.ne_none_iff_exists'.mp hq'
  obtain ⟨m', hm'⟩ := Option.ne_none_iff_exists'.mp (hsub q hq)
  obtain ⟨hms, rfl⟩ := Prod.mk.inj (show m.key = (s, q') from find?_key hm)
  obtain ⟨hms', rfl⟩ := Prod.mk.inj (show m'.key = (s, q) from find?_key hm')
  have hold := h m (mem_of_find? hm) (by rwa [hms]) (by rwa [MessageRow.key, hms]) m' (mem_of_find? hm')
    (hms'.trans hms.symm) hle
  rw [MessageRow.key, hms'] at hold
  exact hq hold

/-- A stream without a counter is solid. -/
theorem solid_of_missing (hseq : st'.streamSeq.find? s = none)
    (hfirst : ∀ q, st'.messages.find? (s, q) ≠ none → 1 ≤ q) :
    st'.Solid s := by
  intro q q' hlive hle hlt
  have hnext : st'.nextOf s = 1 := by rw [Store.nextOf, hseq]; rfl
  have := hfirst q hlive
  omega

theorem Store.Chronicle.positive (h : st.Chronicle s) (hq : st.messages.find? (s, q) ≠ none) : 1 ≤ q := by
  obtain ⟨m, hm⟩ := Option.ne_none_iff_exists'.mp hq
  obtain ⟨hms, rfl⟩ := Prod.mk.inj (show m.key = (s, q) from find?_key hm)
  exact h.first m (mem_of_find? hm) hms

/-- A stream that exists is in order as a whole. -/
theorem Store.Chronicle.whole (h : st.Chronicle s) (hs : st.Sound) (hu : st.metaTable.find? (.reap s) = none)
    (hm : m ∈ st.messages) (hm' : m' ∈ st.messages) (hms : m.stream = s) (hms' : m'.stream = s) (hle : m.seq ≤ m'.seq) :
    m.publishedAt ≤ m'.publishedAt := by
  obtain ⟨row, hrow, -, hlt⟩ := hs.stored s m'.seq hu (by rw [← hms', stored_of_mem hm']; simp)
  exact h.order m hm m' hm' hms hms' hle (by rw [nextOf_of_seq hrow]; exact hlt)

theorem Store.Counted.unmarked (h : st.Counted) (hr : st.streams.find? s = some row) :
    st.metaTable.find? (.reap s) = none := by
  by_contra hm
  exact h.paired s (.inl (by simp [hr])) (h.marked s hm)

theorem Store.Counted.missing (h : st.Counted) (hm : st.metaTable.find? (.reap s) ≠ none) :
    st.streamSeq.find? s = none := by
  by_contra hq
  exact h.paired s (.inr hq) (h.marked s hm)

/-- A reap takes from streams that have no counter. -/
theorem Reaped.solid {name : Bytes} (h : Reaped st name st') (hc : st.Counted) (hch : st.Chronicle s)
    (hm : st.metaTable.find? (.reap name) ≠ none) (hsol : st.Solid s) : st'.Solid s := by
  have hsub : ∀ q, st'.messages.find? (s, q) ≠ none → st.messages.find? (s, q) ≠ none := fun q hq => by
    obtain ⟨m, hm⟩ := Option.ne_none_iff_exists'.mp hq
    simp [h.messages _ m hm]
  by_cases hs : s = name
  · subst hs
    exact solid_of_missing (by rw [h.seq, hc.missing hm]) fun q hq => hch.positive (hsub q hq)
  · refine hsol.thinned (nextOf_congr (by rw [h.seq])) hsub fun q q' _ _ hq' => ?_
    rw [h.elsewhere _ hs]
    exact hq'

theorem Restarted.solid (h : Restarted env st st') (hsol : st.Solid s) : st'.Solid s := by
  have hsub : ∀ q, st'.messages.find? (s, q) ≠ none → st.messages.find? (s, q) ≠ none := fun q hq => by
    obtain ⟨m', hm'⟩ := Option.ne_none_iff_exists'.mp hq
    obtain ⟨m, hm, -⟩ := h.messages _ m' hm'
    simp [hm]
  refine hsol.thinned (nextOf_congr (by rw [h.seq])) hsub fun q q' hq _ hq' => ?_
  refine h.unmarked (s, q') ?_ hq'
  by_contra hm
  exact hq (h.marked (s, q) hm)

/-- **Requests.** A request that takes messages from the front only leaves no gap. -/
theorem applyRequest_solid {req : Request} {reply : Reply} (hon : on s = true) (hs : st.Sound) (hc : st.Counted)
    (hch : st.Chronicle s) (hnil : st.carriers = [])
    (hm : ∀ name, req = .reapChunk name → st.metaTable.find? (.reap name) ≠ none)
    (hf : req.prunes = true → st.TakesFront on st') (h : applyRequest env req st = .ok (reply, st'))
    (hsol : st.Solid s) :
    st'.Solid s := by
  have he := applyRequest_effect h
  cases applyRequest_record hnil h with
  | entries hent => exact hent.solid hsol
  | created row hcr =>
    obtain ⟨next, -, hseq⟩ := hcr.seq
    by_cases hname : s = row.name
    · subst hname
      intro q q' hlive
      rw [hcr.messages] at hlive
      exact absurd (hcr.vacant hs q) hlive
    · refine hsol.thinned (nextOf_congr ((hseq s).trans (if_neg hname))) (by rw [hcr.messages]; exact fun _ h => h) ?_
      rw [hcr.messages]
      exact fun _ _ _ _ h => h
  | deleted name hd =>
    by_cases hname : s = name
    · subst hname
      refine solid_of_missing (by rw [hd.seq, if_pos rfl]) fun q hq => hch.positive ?_
      rwa [hd.messages] at hq
    · refine hsol.thinned (nextOf_congr ((hd.seq s).trans (if_neg hname))) (by rw [hd.messages]; exact fun _ h => h) ?_
      rw [hd.messages]
      exact fun _ _ _ _ h => h
  | thinned hr ht =>
    cases req with
    | purge | retention =>
      exact hsol.thinned (nextOf_congr (by rw [ht.seq])) (fun q hq => ht.stored hq)
        ((hf rfl).stays hon fun q hq => ht.stored hq)
    | reapChunk name => exact Reaped.solid he hc hch (hm name rfl) hsol
    | reapResume =>
      rcases he with rfl | ⟨name, hmark, he⟩
      · exact hsol
      · exact he.solid hc hch hmark hsol
    | restart unclean => exact Restarted.solid he hsol
    | _ => cases hr

end Solid

/-- The conditions under which a run leaves no gap. -/
def Orderly (v : Visit) : Prop := ReapsMarked v ∧ SeedsUnmarked v ∧ FromFront (fun _ => true) v

instance (v : Visit) : Decidable (Orderly v) := inferInstanceAs (Decidable (_ ∧ _))

/-- **Run.** As long as messages are taken from the front only, and reaps and the sink keep apart, a stream has no
gap. -/
theorem Runs.solid {h : List Visit} {b : Broker} (r : Runs h b)
    (hall : ∀ v ∈ h, ReapsMarked v ∧ SeedsUnmarked v ∧ FromFront on v) (hon : on s = true) : b.store.Solid s := by
  refine r.invariant_along (C := fun _ v => ReapsMarked v ∧ SeedsUnmarked v ∧ FromFront on v)
    (I := fun _ b => b.store.Solid s)
    (upheld_of_forall hall) (fun _ _ hq => absurd rfl hq) fun h b act r hup hsol hv => ?_
  have r : Runs h b := r
  have hc : b.store.Counted := r.counted fun v hv => ⟨(hup.forall v hv).1, (hup.forall v hv).2.1⟩
  rcases reapsMarked_cases hv.1 with hmark | ⟨es, hsame⟩
  swap
  · rw [hsame]
    exact hsol
  rcases exec_cases b act with ⟨reply, st, hcom⟩ | ⟨hst, -⟩
  · have hch := r.chronicle s
    have hf : act.req.prunes = true → b.store.TakesFront on (b.exec act).1.store := hv.2.2
    rw [hcom.post] at hf ⊢
    have hst : st.Solid s := applyRequest_solid hon (r.sound.uncarried []) (hc.uncarried [])
      ⟨hch.next, hch.first, hch.order⟩ rfl hmark hf hcom.run hsol
    exact hst
  · rw [hst]
    exact hsol

end Messq

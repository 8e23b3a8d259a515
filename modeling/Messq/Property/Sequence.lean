import Messq.Run
import Messq.Effect.Record
import Messq.Lib.Counter

/-! # Sequence numbers are not reused

`Store.upcoming` is the number the next message of a stream takes: the stream's counter, or the mark its deletion left.
Every visit draws its numbers from there (`Acts.drawn`, `effect_drawn`), with one exception: the dead-letter sink seeds
the counter of a missing stream at 1 and reads no mark (`dead_letter_reuses`). As long as no such stream was deleted
with numbers drawn, the numbers of a name are 1, 2, 3, … over the whole history (`sequences_never_reused`). -/

namespace Messq

open Lib Table Relation

variable {name : Bytes} {env : Env} {e : Event} {kind : Kind} {row : SeqRow} {b : Broker} {reply : Reply} {s : Step}

/-! ## Numbers and reports -/

/-- The number the next message of a stream takes, also while the stream is deleted. -/
def Store.upcoming (st : Store) (s : Bytes) : ℤ :=
  match st.streamSeq.find? s with
  | some row => row.next
  | none => match (st.metaTable.find? (.seqHwm s)).map MetaRow.v with
    | some (.int hwm) => hwm + 1
    | _ => 1

/-- The numbers of a stream that a run allocated, in order. -/
def allocated (s : Bytes) (h : List Visit) : List ℤ := h.flatMap fun v => allocationsOf s v.out.events

section Upcoming

variable {st st' : Store} {s : Bytes}

theorem upcoming_of_seq (h : st.streamSeq.find? s = some row) : st.upcoming s = row.next := by
  simp only [Store.upcoming, h]

theorem upcoming_congr (hq : st'.streamSeq.find? s = st.streamSeq.find? s)
    (hm : st'.metaTable.find? (.seqHwm s) = st.metaTable.find? (.seqHwm s)) : st'.upcoming s = st.upcoming s := by
  simp only [Store.upcoming, hq, hm]

/-- A created stream goes on where its name left off. -/
theorem upcoming_of_resumesAt {next : ℤ} (hn : st.streamSeq.find? s = none) (h : st.resumesAt s next) :
    st.upcoming s = next := by
  rcases h with ⟨hm, rfl⟩ | ⟨hwm, hm, rfl⟩ <;> simp [Store.upcoming, hn, hm]

end Upcoming

/-! ## Drawing -/

/-- Each stream's reports since `st` are what its counter gave out, and what was stored since has such a number. -/
structure Drawn (st st' : Store) : Prop where
  draws : ∀ s, ∃ xs, allocationsOf s st'.carriers = allocationsOf s st.carriers ++ xs ∧
    Draws (st.upcoming s) xs (st'.upcoming s)
  stored : ∀ s q, st'.messages.find? (s, q) ≠ none → st.messages.find? (s, q) ≠ none ∨ st.upcoming s ≤ q

theorem Drawn.refl (st : Store) : Drawn st st := ⟨fun s => ⟨[], by simp, .nil _⟩, fun _ _ h => .inl h⟩

theorem Drawn.le {st st' : Store} (h : Drawn st st') (s : Bytes) : st.upcoming s ≤ st'.upcoming s := by
  obtain ⟨_, -, hd⟩ := h.draws s
  exact hd.le

theorem Drawn.trans {st₁ st₂ st₃ : Store} (h₁ : Drawn st₁ st₂) (h₂ : Drawn st₂ st₃) : Drawn st₁ st₃ := by
  refine ⟨fun s => ?_, fun s q hq => ?_⟩
  · obtain ⟨xs, hx, hdx⟩ := h₁.draws s
    obtain ⟨ys, hy, hdy⟩ := h₂.draws s
    exact ⟨xs ++ ys, by rw [hy, hx, List.append_assoc], hdx.append hdy⟩
  · rcases h₂.stored s q hq with hq | hq
    · exact h₁.stored s q hq
    · exact .inr ((h₁.le s).trans hq)

/-- Nothing is drawn. -/
theorem drawn_same {st st' : Store} (hu : ∀ s, st'.upcoming s = st.upcoming s)
    (hc : ∀ s, allocationsOf s st'.carriers = allocationsOf s st.carriers)
    (hm : ∀ k, st'.messages.find? k ≠ none → st.messages.find? k ≠ none) : Drawn st st' :=
  ⟨fun s => ⟨[], by rw [hc, List.append_nil], by rw [hu]; exact .nil _⟩, fun _ _ h => .inl (hm _ h)⟩

theorem drawn_logged (st : Store) (he : e.allocation = none) : Drawn st (st.logged e) := by
  refine drawn_same (fun s => rfl) (fun s => ?_) fun _ h => h
  show allocationsOf s (st.carriers ++ [e]) = _
  rw [allocationsOf_append, allocationsOf_none (List.forall_mem_singleton.mpr he), List.append_nil]

theorem drawn_appended {st : Store} {m : MessageRow} {msgs : Table MessageRow.key}
    (hr : st.streamSeq.find? m.stream = some row) (hq : m.seq = row.next) (hi : st.messages.insert m = some msgs)
    (he : e.allocation = some (m.stream, row.next)) : Drawn st (st.appended m msgs e) := by
  refine ⟨fun s => ?_, fun s q h => ?_⟩
  · have hseq : (st.appended m msgs e).streamSeq.find? s =
        if s = m.stream then some ⟨m.stream, row.next + 1⟩ else st.streamSeq.find? s := find?_takeSeq hr s
    refine ⟨_, allocationsOf_append s st.carriers [e], ?_⟩
    rw [allocationsOf_single he]
    by_cases hs : s = m.stream
    · subst hs
      rw [if_pos rfl] at hseq
      rw [if_pos rfl, upcoming_of_seq hr, upcoming_of_seq hseq]
      exact .single _
    · rw [if_neg hs] at hseq
      rw [if_neg (Ne.symm hs), upcoming_congr hseq rfl]
      exact .nil _
  · have h : msgs.find? (s, q) ≠ none := h
    rw [find?_insert hi] at h
    split at h
    · rename_i hk
      obtain ⟨rfl, rfl⟩ := Prod.mk.inj hk
      exact .inr (by rw [upcoming_of_seq hr, hq])
    · exact .inl h

/-! ## Background requests -/

/-- The counters that were added since `st` are those of names that had never drawn a number. -/
def Store.SeedsFresh (st st' : Store) : Prop :=
  ∀ r ∈ st.advanced st', st.streamSeq.find? r.stream = none → st.upcoming r.stream = 1

theorem Background.seedsFresh {st st₁ st₂ st₃ : Store} (h : Background st st₁) (h₂ : Background st₂ st₃)
    (hf : st.SeedsFresh st₃) : st₁.SeedsFresh st₂ := by
  intro r hr hn
  obtain ⟨r', hr', hk⟩ := h.advanced h₂ hr
  have hn₀ : st.streamSeq.find? r.stream = none := by
    by_contra hne
    obtain ⟨r₀, hr₀⟩ := Option.ne_none_iff_exists'.mp hne
    obtain ⟨r₁, hr₁, -⟩ := h.seq _ r₀ hr₀
    rw [hn] at hr₁
    cases hr₁
  rw [upcoming_congr (hn.trans hn₀.symm) (by rw [h.metaTable]), ← hk]
  exact hf r' hr' (by rwa [hk])

theorem drawn_ensured {st : Store} {dlq origin : Bytes} (h : st.streamSeq.find? dlq = none → st.upcoming dlq = 1) :
    Drawn st (st.ensured env dlq origin) := by
  refine drawn_same (fun s => ?_) (fun s => rfl) fun _ h => h
  have hseq : (st.ensured env dlq origin).streamSeq.find? s = _ := find?_insertIgnore st.streamSeq ⟨dlq, 1⟩ s
  by_cases hs : s = dlq
  · subst hs
    rw [if_pos rfl] at hseq
    rw [upcoming_of_seq hseq]
    cases hr : st.streamSeq.find? s with
    | none => rw [h hr]; rfl
    | some row => rw [upcoming_of_seq hr]; rfl
  · rw [if_neg (show ¬ s = SeqRow.stream ⟨dlq, 1⟩ from hs)] at hseq
    exact upcoming_congr hseq rfl

theorem Buried.drawn {d : DeadCtx} {st st' : Store} (h : Buried env d st st') (hf : st.SeedsFresh st') :
    Drawn st st' := by
  cases h with
  | report policy outcome ho =>
    refine drawn_logged st ?_
    rcases ho with rfl | rfl <;> rfl
  | copy c origin m row msgs trimmed truncated hc hp ho hm hr hq hi =>
    have hko := find?_key ho
    have hms : m.stream = dlqName d.stream := hm.stream.trans (congrArg dlqName (Prod.mk.inj hko).1)
    have hseq : (st.ensured env (dlqName d.stream) d.stream).streamSeq.find? m.stream = some row := by
      rw [hms]; exact hr
    refine (drawn_ensured fun hn => ?_).trans (drawn_appended hseq hq hi (by rw [← hq]; rfl))
    rw [← hms] at hn ⊢
    exact hf _ (advanced_copied hseq) hn

theorem Act.drawn {st st' : Store} (h : Act env kind st st') (hf : kind = .delivery → st.SeedsFresh st') :
    Drawn st st' := by
  cases h with
  | log _ e _ hn => exact drawn_logged st (allocation_of_plain hn)
  | lapse _ e _ hn => exact drawn_logged st (by unfold Event.allocation; rw [hn])
  | ack _ d e t _ _ _ hn =>
    have he : e.allocation = none := by unfold Event.allocation; rw [hn]
    have hd := drawn_logged st he
    exact ⟨hd.draws, hd.stored⟩
  | die _ st₁ ctx d t hb =>
    have hd := hb.drawn (hf rfl)
    exact ⟨hd.draws, hd.stored⟩
  | store _ m row msgs e hr hq hi _ hn hk =>
    refine drawn_appended hr hq hi ?_
    unfold Event.allocation
    rw [hn, ← hq]
    exact congrArg some hk
  | limit | extend | release | tune | trim => exact drawn_same (fun _ => rfl) (fun _ => rfl) fun _ h => h
  | evict _ row seqs high =>
    refine drawn_same (fun _ => rfl) (fun _ => rfl) fun k h hn => h ?_
    refine (find?_delete st.messages _ k).trans ?_
    rw [hn]
    rfl
  | redact _ p =>
    refine drawn_same (fun _ => rfl) (fun _ => rfl) fun k h hn => h ?_
    rw [find?_update, hn]
    rfl

/-- **Background requests.** They draw from the counters, in the order of their reports. -/
theorem Acts.drawn {st st' : Store} (h : Acts env kind st st') (hf : kind = .delivery → st.SeedsFresh st') :
    Drawn st st' := by
  induction h with
  | refl => exact .refl st
  | tail h₁ ha ih =>
    have hbefore := (Acts.moves h₁).background
    have hafter := (Acts.moves (.single ha)).background
    exact (ih fun hk => (Background.refl st).seedsFresh hafter (hf hk)).trans
      (ha.drawn fun hk => hbefore.seedsFresh (.refl _) (hf hk))

/-! ## Every request -/

/-- The other requests draw nothing, and a stream that goes or comes leaves its numbers where they were. -/
theorem drawn_of_reports {st st' : Store} (hnil : st.carriers = []) (hr : Reports st st')
    (hu : ∀ s, st'.upcoming s = st.upcoming s) (hm : ∀ k, st'.messages.find? k ≠ none → st.messages.find? k ≠ none) :
    Drawn st st' := by
  refine drawn_same hu (fun s => ?_) hm
  rw [hnil, allocationsOf_none fun e he => ?_]
  · rfl
  · rcases hr e he with h | h
    · rw [hnil] at h; cases h
    · exact h

theorem StreamDeleted.upcoming {st st' : Store} (hs : st.Sound) (h : StreamDeleted st name st') (s : Bytes) :
    st'.upcoming s = st.upcoming s := by
  by_cases hn : s = name
  · subst hn
    obtain ⟨row, hrow⟩ := Option.ne_none_iff_exists'.mp (hs.stats s h.existed)
    have hq : st'.streamSeq.find? s = none := by rw [h.seq, if_pos rfl]
    rw [upcoming_of_seq hrow]
    simp [Store.upcoming, hq, h.hwm, hrow]
  · exact upcoming_congr (by rw [h.seq, if_neg hn]) (h.other _ (by simp) (by simpa using hn))

theorem StreamCreated.upcoming {st st' : Store} {row : StreamRow} (h : StreamCreated st row st') (s : Bytes) :
    st'.upcoming s = st.upcoming s := by
  obtain ⟨next, hres, hseq⟩ := h.seq
  have hq := hseq s
  by_cases hn : s = row.name
  · subst hn
    rw [if_pos rfl] at hq
    rw [upcoming_of_seq hq, upcoming_of_resumesAt h.fresh hres]
  · rw [if_neg hn] at hq
    exact upcoming_congr hq (by rw [h.metaTable])

theorem Reaped.upcoming {st st' : Store} (h : Reaped st name st') (s : Bytes) : st'.upcoming s = st.upcoming s := by
  refine upcoming_congr (by rw [h.seq]) ?_
  rcases h.metaTable with hm | ⟨hm, -⟩
  · rw [hm]
  · rw [hm, if_neg (by simp)]

/-- **Requests.** A committed request draws the numbers it reports. -/
theorem effect_drawn {req : Request} {st st' : Store} (hs : st.Sound) (hnil : st.carriers = [])
    (hf : req.kind = .delivery → st.SeedsFresh st') (h : applyRequest env req st = .ok (reply, st')) :
    Drawn st st' := by
  cases (applyRequest_effect h).shape with
  | same => exact .refl _
  | created he => exact drawn_of_reports hnil he.reports he.upcoming (by rw [he.messages]; exact fun _ h => h)
  | deleted he => exact drawn_of_reports hnil he.reports (he.upcoming hs) (by rw [he.messages]; exact fun _ h => h)
  | reaped _ he =>
    refine drawn_of_reports hnil he.reports he.upcoming fun k h => ?_
    obtain ⟨m, hm⟩ := Option.ne_none_iff_exists'.mp h
    simp [he.messages k m hm]
  | confined he =>
    exact drawn_of_reports hnil he.reports (fun s => upcoming_congr (by rw [he.seq]) (he.hwm s))
      (by rw [he.messages]; exact fun _ h => h)
  | purged he =>
    refine drawn_of_reports hnil he.reports (fun s => upcoming_congr (by rw [he.seq]) (by rw [he.metaTable]))
      fun k h => ?_
    obtain ⟨m, hm⟩ := Option.ne_none_iff_exists'.mp h
    simp [((he.messages k m).mp hm).1]
  | restarted he =>
    refine drawn_same (fun s => upcoming_congr (by rw [he.seq]) (he.other _ (by simp))) (fun s => ?_) fun k h => ?_
    · rw [hnil, he.carriers]
    · obtain ⟨m', hm'⟩ := Option.ne_none_iff_exists'.mp h
      obtain ⟨m, hm, -⟩ := he.messages k m' hm'
      simp [hm]
  | moved hb => exact (applyRequest_acts hb _ _ _ h).drawn hf

/-! ## Runs -/

/-- The dead-letter streams that the sink seeded in the visit are fresh names. -/
def SeedsFresh (v : Visit) : Prop := v.act.req.kind = .delivery → v.pre.store.SeedsFresh v.post.store

instance (st st' : Store) : Decidable (st.SeedsFresh st') := by unfold Store.SeedsFresh; infer_instance

instance (v : Visit) : Decidable (SeedsFresh v) := by unfold SeedsFresh; infer_instance

theorem Committed.seedsFresh {st : Store} (hcom : Committed b s reply st) (hf : SeedsFresh (visit Broker.exec b s))
    (hk : s.req.kind = .delivery) : b.store.SeedsFresh st := by
  have hf : b.store.SeedsFresh (b.exec s).1.store := hf hk
  rw [hcom.post] at hf
  exact hf

/-- **Step.** A visit draws the numbers it reports and stores no message below them. -/
theorem exec_drawn (hs : b.store.Sound) (hf : SeedsFresh (visit Broker.exec b s)) :
    (∀ n, Draws (b.store.upcoming n) (allocationsOf n (b.exec s).2.events) ((b.exec s).1.store.upcoming n)) ∧
      ∀ n q, (b.exec s).1.store.messages.find? (n, q) ≠ none →
        b.store.messages.find? (n, q) ≠ none ∨ b.store.upcoming n ≤ q := by
  rcases exec_cases b s with ⟨reply, st, hcom⟩ | ⟨hst, -, hev, -⟩
  · have hd := effect_drawn (hs.uncarried []) rfl (hcom.seedsFresh hf) hcom.run
    rw [hcom.out, hcom.post]
    refine ⟨fun n => ?_, hd.stored⟩
    obtain ⟨xs, hxs, hdraw⟩ := hd.draws n
    have hxs : allocationsOf n st.carriers = xs := hxs
    rw [Outcome.events, hxs]
    exact hdraw
  · rw [hev, hst]
    exact ⟨fun n => .nil _, fun _ _ h => .inl h⟩

/-- **No reuse.** The numbers of a stream name are drawn one after the other from 1 on, over the whole history; a
request that did not commit draws none. -/
theorem sequences_never_reused {h : List Visit} {b : Broker} (r : Runs h b) (hf : ∀ v ∈ h, SeedsFresh v) (s : Bytes) :
    (allocated s h).Pairwise (· < ·) ∧ Draws 1 (allocated s h) (b.store.upcoming s) ∧
      ∀ v ∈ h, (∀ reply es, v.out ≠ .ok reply es) → v.post.store = v.pre.store ∧ allocationsOf s v.out.events = [] := by
  have hdraw : Draws 1 (allocated s h) (b.store.upcoming s) := by
    refine r.invariant_along (C := fun _ v => SeedsFresh v) (I := fun h b => Draws 1 (allocated s h)
      (b.store.upcoming s))
      (upheld_of_forall hf) (.nil 1) fun h b act r _ ih hv => ?_
    have r : Runs h b := r
    rw [allocated, List.flatMap_append, List.flatMap_singleton]
    exact ih.append ((exec_drawn r.sound hv).1 s)
  refine ⟨hdraw.pairwise, hdraw, fun v hv hout => ?_⟩
  obtain ⟨h₁, h₂, -, -, hvis, -⟩ := r.at_mem hv
  rw [hvis] at hout ⊢
  rcases exec_cases v.pre v.act with ⟨reply, st, hcom⟩ | ⟨hst, -, hev, -⟩
  · exact absurd hcom.out (hout reply st.carriers)
  · refine ⟨hst, ?_⟩
    show allocationsOf s (v.pre.exec v.act).2.events = []
    rw [hev]
    rfl

/-! ## A dead-letter stream that is deleted and needed again -/

/-- Two deaths of the sample consumer; between them the dead-letter stream is deleted. -/
def reusedLife : List (ℤ × Request) :=
  aSetup 2 ++ [(10, aFetch 2), (11, .settle [anItem .term 1 1 1]),
    (12, .deleteStream (dlqName aStream) (dlqName aStream) []), (13, .reapChunk (dlqName aStream)),
    (14, .settle [anItem .term 2 1 1])]

/-- Both copies are number 1. -/
theorem dead_letter_reuses : Runs (play reusedLife) (playState reusedLife) ∧
    allocated (dlqName aStream) (play reusedLife) = [1, 1] :=
  ⟨runs_play _, by decide +kernel⟩

/-- Two deaths, then the stream itself is deleted and created again. -/
def resumedLife : List (ℤ × Request) :=
  aSetup 2 ++ [(10, aFetch 2), (11, .settle [anItem .term 1 1 1]),
    (12, .settle [anItem .term 2 1 1]), (13, .deleteStream aStream aStream []),
    (14, .reapChunk aStream), (15, aCreate),
    (16, aPublish)]

theorem sequences_never_reused_resumedLife :
    allocated aStream (play resumedLife) = [1, 2, 3] ∧ allocated (dlqName aStream) (play resumedLife) = [1, 2] ∧
    (allocated aStream (play resumedLife)).Pairwise (· < ·) :=
  ⟨by decide +kernel, by decide +kernel, (sequences_never_reused (runs_play resumedLife) (by decide +kernel) _).1⟩

end Messq

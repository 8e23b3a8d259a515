import Messq.Verify.Dlq
import Messq.Property.Front
import Messq.Property.Dead

/-! # What the dead-letter checker finds

P-DLQ1 takes a copy for legitimately gone when a later message of its stream is stored. A purge, retention or a deletion
that leaves nothing of the stream, and one that takes a copy from its middle, are therefore reported. As long as
messages leave dead-letter streams from the front and never the last of them, the checker finds nothing
(`dlq_check_clean`). -/

namespace Messq

open Lib Table Relation

variable {b : Broker} {e : Event} {h : List Visit} {reply : Reply} {req : Request} {k : Bytes × ℤ} {env : Env}

/-- The deletion of a dead-letter stream. -/
def Request.dropsSink : Request → Bool
  | .deleteStream name _ _ => isDLQ name
  | _ => false

/-- A dead-letter stream that had messages has one left. -/
def Store.LeavesLast (st st' : Store) : Prop :=
  ∀ m ∈ st.messages, isDLQ m.stream = true → ∃ m' ∈ st'.messages, m'.stream = m.stream

/-- The visit deletes no dead-letter stream; a purge or a retention sweep takes from one only its front and never its
last message. -/
def SparesCopies (v : Visit) : Prop :=
  ReapsMarked v ∧ FromFront isDLQ v ∧ v.act.req.dropsSink = false ∧
    (v.act.req.prunes = true → v.pre.store.LeavesLast v.post.store)

instance (v : Visit) : Decidable (SparesCopies v) := by unfold SparesCopies Store.LeavesLast; infer_instance

/-! ## Marks -/

/-- No dead-letter stream is being reaped. -/
def Store.SinksOpen (st : Store) : Prop := ∀ s, isDLQ s = true → st.metaTable.find? (.reap s) = none

/-- Only a deletion sets the mark. -/
theorem effect_unmarked {st st' : Store} (he : Effect env st req reply st') {s : Bytes}
    (hu : st.metaTable.find? (.reap s) = none) (hd : ∀ confirm actor, req ≠ .deleteStream s confirm actor) :
    st'.metaTable.find? (.reap s) = none := by
  by_contra hk
  rcases effect_marks he hk with ⟨confirm, actor, hreq⟩ | hk
  · exact hd confirm actor hreq
  · exact hk hu

theorem Runs.sinksOpen (r : Runs h b) (hall : ∀ v ∈ h, SparesCopies v) : b.store.SinksOpen := by
  refine Runs.holds (C := SparesCopies) (I := Store.SinksOpen) (fun _ _ => rfl) (fun _ _ h => h)
    (fun b act reply st _ _ hv hcom hi s hs => effect_unmarked hcom.effect (hi s hs)
      fun confirm actor hreq => ?_) r hall
  have hdrops : act.req.dropsSink = false := hv.2.2.1
  rw [hreq, Request.dropsSink, hs] at hdrops
  cases hdrops

theorem Runs.seedsUnmarked (r : Runs h b) (hall : ∀ v ∈ h, SparesCopies v) : ∀ v ∈ h, SeedsUnmarked v := by
  intro v hv _ r _ hd
  obtain ⟨h₁, h₂, rfl⟩ := List.append_of_mem hv
  obtain ⟨r₁, -, -⟩ := r.at_visit
  exact Runs.sinksOpen r₁ (fun u hu => hall u (List.mem_append_left _ hu)) _ hd

/-! ## Copies -/

/-- The stream of the copy still has a message that is not older. -/
def Store.Outlasts (st : Store) (k : Bytes × ℤ) : Prop := ∃ q, k.2 ≤ q ∧ st.messages.find? (k.1, q) ≠ none

section Request

variable {st st' : Store}

theorem Store.Outlasts.mono (h : st.Outlasts k)
    (hm : ∀ q, st.messages.find? (k.1, q) ≠ none → st'.messages.find? (k.1, q) ≠ none) : st'.Outlasts k := by
  obtain ⟨q, hle, hq⟩ := h
  exact ⟨q, hle, hm q hq⟩

theorem Reaped.outlasts {name : Bytes} (h : Reaped st name st') (hm : st.metaTable.find? (.reap name) ≠ none)
    (hu : st.metaTable.find? (.reap k.1) = none) (hk : st.Outlasts k) : st'.Outlasts k := by
  refine hk.mono fun q hq => ?_
  have hne : k.1 ≠ name := fun heq => hm (heq ▸ hu)
  rwa [h.elsewhere (k.1, q) hne]

/-- Taking the front of a stream and not its last message leaves one that is not older. -/
theorem Store.TakesFront.outlasts (h : st.TakesFront isDLQ st') (hl : st.LeavesLast st') (hd : isDLQ k.1 = true)
    (hsub : ∀ q, st'.messages.find? (k.1, q) ≠ none → st.messages.find? (k.1, q) ≠ none) (hk : st.Outlasts k) :
    st'.Outlasts k := by
  obtain ⟨q, hle, hq⟩ := hk
  obtain ⟨x, hx⟩ := Option.ne_none_iff_exists'.mp hq
  obtain ⟨hxs, rfl⟩ := Prod.mk.inj (show x.key = (k.1, q) from find?_key hx)
  obtain ⟨m, hm, hms⟩ := hl x (mem_of_find? hx) (by rwa [hxs])
  have hmk : st'.messages.find? (k.1, m.seq) ≠ none := by
    rw [← hxs, ← hms, stored_of_mem hm]
    exact Option.some_ne_none m
  rcases le_total x.seq m.seq with hxle | hmle
  · exact ⟨m.seq, hle.trans hxle, hmk⟩
  · exact ⟨x.seq, hle, h.stays hd hsub m.seq x.seq hmk hmle hq⟩

/-- **Requests.** A request that takes messages from the front and spares the last leaves one that is not older. -/
theorem applyRequest_outlasts (hd : isDLQ k.1 = true) (hu : st.metaTable.find? (.reap k.1) = none)
    (hnil : st.carriers = []) (hm : ∀ name, req = .reapChunk name → st.metaTable.find? (.reap name) ≠ none)
    (hf : req.prunes = true → st.TakesFront isDLQ st' ∧ st.LeavesLast st')
    (h : applyRequest env req st = .ok (reply, st')) (hk : st.Outlasts k) : st'.Outlasts k := by
  have he := applyRequest_effect h
  cases applyRequest_record hnil h with
  | entries hent =>
    obtain ⟨xs, -, -, hlive⟩ := hent.draws k.1
    exact hk.mono fun q hq => (hlive q).mpr (.inl hq)
  | created name hcr => exact hk.mono fun q hq => by rwa [hcr.messages]
  | deleted name hdel => exact hk.mono fun q hq => by rwa [hdel.messages]
  | thinned hr ht =>
    cases req with
    | purge | retention => exact (hf rfl).1.outlasts (hf rfl).2 hd (fun q hq => ht.stored hq) hk
    | reapChunk name => exact Reaped.outlasts he (hm name rfl) hu hk
    | reapResume =>
      rcases he with rfl | ⟨name, hmark, he⟩
      · exact hk
      · exact he.outlasts hmark hu hk
    | restart unclean => exact hk.mono fun q hq => Restarted.unmarked he (k.1, q) hu hq
    | _ => cases hr

end Request

/-- What the audit trail says was copied. -/
def Store.Conserves (st : Store) : Prop :=
  ∀ row ∈ st.events, ∀ k, row.event.copy = some k → isDLQ k.1 = true ∧ 1 ≤ k.2 ∧ st.Outlasts k

/-- **Run.** Every copy that was written is stored, or a later message of its stream is. -/
theorem Runs.conserves (r : Runs h b) (hall : ∀ v ∈ h, SparesCopies v) : b.store.Conserves := by
  refine r.invariant_along (C := fun _ v => SparesCopies v) (I := fun _ b => b.store.Conserves) (upheld_of_forall hall)
    (fun _ hrow => absurd hrow List.not_mem_nil) fun h b act r hup hi hv row hrow k hcopy => ?_
  have r : Runs h b := r
  rcases written_stamped.2.2 row hrow with hold | hnew
  · -- an older copy
    obtain ⟨hd, hpos, hout⟩ := hi row hold k hcopy
    refine ⟨hd, hpos, ?_⟩
    rcases reapsMarked_cases hv.1 with hmark | ⟨es, hsame⟩
    swap
    · rw [hsame]
      exact hout
    rcases exec_cases b act with ⟨reply, st, hcom⟩ | ⟨hst, -⟩
    · have hu : { b.store with carriers := [] }.metaTable.find? (.reap k.1) = none := r.sinksOpen hup.forall k.1 hd
      have hf : act.req.prunes = true → b.store.TakesFront isDLQ (b.exec act).1.store ∧
          b.store.LeavesLast (b.exec act).1.store := fun hp => ⟨hv.2.1 hp, hv.2.2.2 hp⟩
      rw [hcom.post] at hf ⊢
      have hst : st.Outlasts k := applyRequest_outlasts hd hu rfl hmark hf hcom.run hout
      exact hst
    · rwa [hst]
  · -- a copy of this visit
    have hk : act.req.kind = .delivery := delivery_of_dead hnew (by_contra fun hn => by
      rw [copy_of_name hn] at hcopy
      cases hcopy)
    have hin := (visit_burials r.sound hk).1.interred row.event (List.mem_map_of_mem hnew) k hcopy
    have hstored : (b.exec act).1.store.messages.find? k ≠ none := by
      obtain ⟨-, m, -, hm, -⟩ := hin.copied
      rw [hm]
      exact Option.some_ne_none m
    refine ⟨?_, ?_, k.2, le_rfl, hstored⟩
    · rw [hin.dlq]
      exact isDLQ_dlqName _
    · have r' : Runs (h ++ [visit Broker.exec b act]) (b.exec act).1 := History.step act r
      exact (r'.chronicle k.1).positive hstored

/-! ## The check -/

theorem written_eq (hn : e.name = .msgDead) (h : e.detail.written = some k) :
    ∃ q, e.copy = some (k.1, q) ∧ k.2 = throughFloat64 q := by
  unfold Detail.written at h
  split at h
  · rename_i dlq q _ _ _ _ _ _ hdet
    obtain rfl := Option.some.inj h
    refine ⟨q, ?_, rfl⟩
    rw [Event.copy, if_pos hn, Event.allocation, hn, hdet]
  · cases h

/-- What is not stored of a stream without gaps is passed by its first number once a later one is stored. -/
theorem checkDead_none {st : Store} (hcons : e.name = .msgDead → ∀ k, e.copy = some k →
      throughFloat64 k.2 = k.2 ∧ st.Solid k.1 ∧ k.2 < st.nextOf k.1 ∧ st.Outlasts k) :
    st.checkDead e = none := by
  unfold Store.checkDead
  split
  · rename_i hn
    split
    · rfl
    · rename_i dlq seq hw
      obtain ⟨q, hcopy, hseq⟩ := written_eq hn hw
      obtain ⟨hfloat, hsol, hlt, q', hle, hq'⟩ := hcons hn _ hcopy
      obtain rfl : seq = q := hseq.trans hfloat
      split
      · rfl
      · rename_i hgone
        have hgone : st.messages.find? (dlq, seq) = none := by simpa using hgone
        have hbehind : ∀ x ∈ st.messagesOf dlq, seq < x.seq := fun x hx => by
          obtain ⟨hxm, hxs⟩ := mem_messagesOf.mp hx
          by_contra hge
          refine hsol x.seq seq ?_ (not_lt.mp hge) hlt hgone
          rw [← hxs, stored_of_mem hxm]
          exact Option.some_ne_none x
        refine if_pos ?_
        obtain ⟨m, hm⟩ := Option.ne_none_iff_exists'.mp hq'
        have hkm := find?_key hm
        obtain ⟨hms, -⟩ := Prod.mk.inj hkm
        have hmem : m ∈ st.messagesOf dlq := mem_messagesOf.mpr ⟨mem_of_find? hm, hms⟩
        cases hfirst : st.firstSeq dlq with
        | none =>
          rw [List.map_eq_nil_iff.mp (List.min?_eq_none_iff.mp hfirst)] at hmem
          cases hmem
        | some first =>
          obtain ⟨x, hx, rfl⟩ := List.mem_map.mp (List.min?_mem hfirst)
          exact decide_eq_true (hbehind x hx)
  · rfl

/-- In a run that takes messages from the front of dead-letter streams only and never the last of one, the checker finds
nothing, as long as no number is too large for a binary64. -/
theorem dlq_check_clean {h : List Visit} {b : Broker} (r : Runs h b) (hall : ∀ v ∈ h, SparesCopies v)
    (hnum : ∀ row ∈ b.store.streamSeq, row.next ≤ 2 ^ 53) : b.store.checkDlq = [] := by
  have hun := r.seedsUnmarked hall
  refine List.filterMap_eq_nil_iff.mpr fun row hrow => checkDead_none fun _ k hcopy => ?_
  obtain ⟨hd, hpos, q, hle, hq⟩ := r.conserves hall row ((List.mem_insertionSort _).mp hrow) k hcopy
  obtain ⟨head, hhead, -, hlt⟩ := r.sound.stored k.1 q (r.sinksOpen hall k.1 hd) hq
  have hbound := hnum head (mem_of_find? hhead)
  refine ⟨throughFloat64_eq (by omega), ?_, by rw [nextOf_of_seq hhead]; omega, q, hle, hq⟩
  exact r.solid (fun v hv => ⟨(hall v hv).1, hun v hv, (hall v hv).2.1⟩) hd

/-- Two messages of the sample stream are given up. -/
def twoBuried : List (ℤ × Request) :=
  aSetup 3 ++ [(10, aFetch 3), (11, .settle [anItem .term 1 1 1, anItem .term 2 1 1])]

/-- The first of the two copies is purged. -/
def firstPurged : List (ℤ × Request) := twoBuried ++ [(12, .purge (dlqName aStream) { upToSeq := some 1 } false [])]

theorem dlq_check_clean_firstPurged :
    ((playState firstPurged).store.messagesOf (dlqName aStream)).map MessageRow.seq = [2] ∧
    (playState firstPurged).store.events.rows.filterMap (fun r => r.event.copy) =
      [(dlqName aStream, 1), (dlqName aStream, 2)] ∧ (playState firstPurged).store.checkDlq = [] :=
  ⟨by decide +kernel, by decide +kernel, dlq_check_clean (runs_play firstPurged) (by decide +kernel)
    (by decide +kernel)⟩

/-! ## False alarms -/

/-- Both copies are purged. -/
def allPurged : List (ℤ × Request) := twoBuried ++ [(12, .purge (dlqName aStream) {} false [])]

/-- The stream of the copies is deleted and reaped, and comes back with the next dead letter. -/
def sinkRecreated : List (ℤ × Request) :=
  twoBuried ++ [(12, .deleteStream (dlqName aStream) (dlqName aStream) []), (13, .reapChunk (dlqName aStream)),
    (14, .settle [anItem .term 3 1 1])]

theorem dlq_check_false_alarms :
    (Runs (play allPurged) (playState allPurged) ∧ (playState allPurged).store.checkDlq =
      [⟨aStream, aConsumer, 1, dlqName aStream, 1⟩, ⟨aStream, aConsumer, 2, dlqName aStream, 2⟩]) ∧
    (Runs (play sinkRecreated) (playState sinkRecreated) ∧ (playState sinkRecreated).store.checkDlq =
      [⟨aStream, aConsumer, 2, dlqName aStream, 2⟩]) :=
  ⟨⟨runs_play _, by decide +kernel⟩, ⟨runs_play _, by decide +kernel⟩⟩

end Messq

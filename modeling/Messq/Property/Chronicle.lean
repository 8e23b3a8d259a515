import Messq.Property.Sequence
import Messq.Effect.Publish

/-! # The order of a stream

From the request that creates a stream until its deletion, every message that publish or the dead-letter sink stores
takes the next number, in the order of the commits, and a request that is refused takes none (`Entries.draws`). The time
stamp of a new message is not before that of any stored one, whatever the clock says, so the stored messages are in the
order of their time stamps (`Store.Chronicle`). A publish or a batch stores all its lines or none, and its receipts say
what became of each (`Lines.receipts`). -/

namespace Messq

open Lib Table Relation

variable {b : Broker} {h : List Visit} {r : PublishReq} {req : Request} {a : Ack} {stream s : Bytes} {xs : List LineRun}
  {m : MessageRow} {step : Step} {v : Visit} {env : Env}

/-! ## Numbers -/

/-- **Entries.** The numbers are drawn from the counter, and the numbers reported are those stored. -/
theorem Entries.draws {st st' : Store} (h : Entries env st st') (s : Bytes) :
    ∃ xs, allocationsOf s st'.carriers = allocationsOf s st.carriers ++ xs ∧ Draws (st.nextOf s) xs (st'.nextOf s) ∧
      ∀ q, st'.messages.find? (s, q) ≠ none ↔ st.messages.find? (s, q) ≠ none ∨ q ∈ xs := by
  induction h with
  | refl => exact ⟨[], by simp, .nil _, by simp⟩
  | @tail st₁ st₂ _ he ih =>
    obtain ⟨xs, hxs, hd, hq⟩ := ih
    cases he with
    | stay hm hk hn ha =>
      refine ⟨xs, by rw [ha, hxs], by rw [hn]; exact hd, fun q => ?_⟩
      rw [← hq]
      constructor
      · intro h
        obtain ⟨m', hm'⟩ := Option.ne_none_iff_exists'.mp h
        obtain ⟨m, hmem, hr⟩ := hm m' (mem_of_find? hm')
        rw [← (show m'.key = (s, q) from find?_key hm'), hr.key, find?_of_mem hmem]
        simp
      · intro h
        obtain ⟨m, hm'⟩ := Option.ne_none_iff_exists'.mp h
        obtain ⟨m', hmem, hr⟩ := hk m (mem_of_find? hm')
        rw [← (show m.key = (s, q) from find?_key hm'), ← hr.key, find?_of_mem hmem]
        simp
    | enter m hw hm hi hn ha =>
      refine ⟨xs ++ if s = m.stream then [m.seq] else [], by rw [ha, hxs, List.append_assoc], hd.append ?_, fun q => ?_⟩
      · rw [hn]
        split
        · rename_i hs
          rw [hs, ← hm]
          exact .single _
        · exact .nil _
      · rw [find?_insert hi, List.mem_append, ← or_assoc, ← hq]
        by_cases hs : s = m.stream
        · subst hs
          by_cases he : q = m.seq
          · simp [he, MessageRow.key]
          · rw [if_neg fun h => he (Prod.mk.inj h).2]
            simp [he]
        · rw [if_neg fun h => hs (Prod.mk.inj h).1, if_neg hs]
          simp

/-- The numbers of the stream `s` that a visit reports are drawn from `first` on, and are those of the messages it
stored. -/
structure Numbered (s : Bytes) (first : ℤ) (v : Visit) : Prop where
  draws : Draws first (allocationsOf s v.out.events) (v.post.store.nextOf s)
  stored : ∀ q ∈ allocationsOf s v.out.events, v.post.store.messages.find? (s, q) ≠ none
  fresh : ∀ q, v.post.store.messages.find? (s, q) ≠ none →
    v.pre.store.messages.find? (s, q) ≠ none ∨ q ∈ allocationsOf s v.out.events

theorem numbered_none (ha : allocationsOf s v.out.events = [])
    (hm : ∀ q, v.post.store.messages.find? (s, q) ≠ none → v.pre.store.messages.find? (s, q) ≠ none) :
    Numbered s (v.post.store.nextOf s) v where
  draws := by rw [ha]; exact .nil _
  stored q hq := by rw [ha] at hq; cases hq
  fresh q hq := .inl (hm q hq)

theorem Thinned.stored {st st' : Store} (h : Thinned st st') {k : Bytes × ℤ} (hk : st'.messages.find? k ≠ none) :
    st.messages.find? k ≠ none := by
  obtain ⟨m', hm'⟩ := Option.ne_none_iff_exists'.mp hk
  obtain ⟨m, hmem, hr⟩ := h.rows m' (mem_of_find? hm')
  rw [← find?_key hm', hr.key, find?_of_mem hmem]
  simp

/-- A committed request that does not delete the stream numbers what it stores, and where there was a counter it starts
there. -/
theorem Record.numbered {st st' : Store} (h : Record env req st st') (hnil : st.carriers = [])
    (hlive : st'.streamSeq.find? s ≠ none) (hpre : v.pre.store = { st with carriers := v.pre.store.carriers })
    (hout : v.out.events = st'.carriers) (hpost : v.post.store = { st' with carriers := [] }) :
    ∃ first, Numbered s first v ∧ (v.pre.store.streamSeq.find? s ≠ none → first = v.pre.store.nextOf s) := by
  have hstored : ∀ q, v.post.store.messages.find? (s, q) = st'.messages.find? (s, q) := fun q => by rw [hpost]
  have hwas : ∀ q, v.pre.store.messages.find? (s, q) = st.messages.find? (s, q) := fun q => by rw [hpre]
  have hnext : v.post.store.nextOf s = st'.nextOf s := by rw [hpost]; rfl
  have hnext₀ : v.pre.store.nextOf s = st.nextOf s := by rw [hpre]; rfl
  cases h with
  | entries h =>
    obtain ⟨xs, hxs, hd, hq⟩ := h.draws s
    rw [hnil] at hxs
    have hxs : allocationsOf s v.out.events = xs := by rw [hout]; exact hxs
    refine ⟨st.nextOf s, ⟨?_, fun q hm => ?_, fun q hm => ?_⟩, fun _ => hnext₀.symm⟩
    · rw [hxs, hnext]
      exact hd
    · rw [hstored]
      exact (hq q).mpr (.inr (hxs ▸ hm))
    · rw [hwas, hxs]
      exact (hq q).mp (by rwa [hstored] at hm)
  | thinned _ h =>
    refine ⟨_, numbered_none (by rw [hout, h.reports, hnil]; rfl) fun q hm => ?_, fun _ => ?_⟩
    · rw [hwas]
      exact h.stored (by rwa [hstored] at hm)
    · rw [hnext, hnext₀]
      exact nextOf_congr (by rw [h.seq])
  | created row h =>
    refine ⟨_, numbered_none (by rw [hout, reports_allocations hnil h.reports, hnil]; rfl) fun q hm => ?_, fun hc => ?_⟩
    · rw [hwas, ← h.messages]
      rwa [hstored] at hm
    · rw [hpre] at hc
      obtain ⟨next, -, hseq⟩ := h.seq
      rw [hnext, hnext₀]
      refine nextOf_congr ((hseq s).trans (if_neg fun hs => ?_))
      rw [hs] at hc
      exact absurd h.fresh hc
  | deleted name h =>
    refine ⟨_, numbered_none (by rw [hout, reports_allocations hnil h.reports, hnil]; rfl) fun q hm => ?_, fun _ => ?_⟩
    · rw [hwas, ← h.messages]
      rwa [hstored] at hm
    · rw [hnext, hnext₀]
      refine nextOf_congr ((h.seq s).trans (if_neg fun hs => hlive ?_))
      rw [h.seq, if_pos hs]

/-- **Step.** The same for every visit. -/
theorem exec_numbered (hlive : (b.exec step).1.store.streamSeq.find? s ≠ none) :
    ∃ first, Numbered s first (visit Broker.exec b step) ∧
      (b.store.streamSeq.find? s ≠ none → first = b.store.nextOf s) := by
  rcases exec_cases b step with ⟨reply, st, hcom⟩ | ⟨hst, -, hev, -⟩
  · have hpost : (b.exec step).1.store = { st with carriers := [] } := by rw [hcom.post]
    rw [hpost] at hlive
    exact (applyRequest_record rfl hcom.run).numbered rfl hlive rfl (by rw [visit, hcom.out]; rfl) hpost
  · refine ⟨_, numbered_none ?_ fun q hm => ?_, fun _ => ?_⟩
    · show allocationsOf s (b.exec step).2.events = []
      rw [hev]
      rfl
    · have hm : (b.exec step).1.store.messages.find? (s, q) ≠ none := hm
      rwa [hst] at hm
    · show (b.exec step).1.store.nextOf s = b.store.nextOf s
      rw [hst]

/-! ## Time stamps -/

/-- Below its next number the messages of a stream are in the order of their time stamps. -/
structure Store.Chronicle (st : Store) (s : Bytes) : Prop where
  next : 1 ≤ st.nextOf s
  first : ∀ m ∈ st.messages, m.stream = s → 1 ≤ m.seq
  order : ∀ m ∈ st.messages, ∀ m' ∈ st.messages, m.stream = s → m'.stream = s → m.seq ≤ m'.seq → m'.seq < st.nextOf s →
    m.publishedAt ≤ m'.publishedAt

theorem publishedAt_le_clamp {st : Store} (hm : m ∈ st.messages) (nowMs : ℤ) :
    m.publishedAt ≤ st.clampPublishedAt m.stream nowMs := by
  have hmem : m.publishedAt ∈ (st.messagesOf m.stream).map MessageRow.publishedAt :=
    List.mem_map_of_mem (mem_messagesOf.mpr ⟨hm, rfl⟩)
  unfold Store.clampPublishedAt Store.lastPublishedAt
  cases hmax : ((st.messagesOf m.stream).map MessageRow.publishedAt).max? with
  | none =>
    rw [List.max?_eq_none_iff.mp hmax] at hmem
    cases hmem
  | some last =>
    have hle := (List.max?_eq_some_iff.mp hmax).2 _ hmem
    dsimp only
    split <;> omega

section Chronicle

variable {st st' : Store}

/-- Taking rows away, or their keys, disturbs nothing, and neither does a message of another stream. -/
theorem Store.Chronicle.thinned (h : st.Chronicle s) (hn : st'.nextOf s = st.nextOf s)
    (hm : ∀ m' ∈ st'.messages, m'.stream = s → ∃ m ∈ st.messages, m'.Remains m) : st'.Chronicle s := by
  have hback : ∀ m' ∈ st'.messages, m'.stream = s → ∃ m ∈ st.messages, m.stream = s ∧ m'.seq = m.seq ∧
      m'.publishedAt = m.publishedAt := fun m' hm' hs => by
    obtain ⟨m, hmem, hr⟩ := hm m' hm' hs
    have hkey := Prod.mk.inj (show (m'.stream, m'.seq) = (m.stream, m.seq) from hr.key)
    exact ⟨m, hmem, hkey.1 ▸ hs, hkey.2, hr.publishedAt⟩
  refine ⟨by rw [hn]; exact h.next, fun m' hm' hs => ?_, fun m₁' hm₁ m₂' hm₂ hs₁ hs₂ hle hlt => ?_⟩
  · obtain ⟨m, hmem, hms, hq, -⟩ := hback m' hm' hs
    rw [hq]
    exact h.first m hmem hms
  · obtain ⟨m₁, hmem₁, hms₁, hq₁, hp₁⟩ := hback m₁' hm₁ hs₁
    obtain ⟨m₂, hmem₂, hms₂, hq₂, hp₂⟩ := hback m₂' hm₂ hs₂
    rw [hp₁, hp₂]
    exact h.order m₁ hmem₁ m₂ hmem₂ hms₁ hms₂ (by omega) (by omega)

theorem Entry.chronicle (he : Entry env st st') (h : st.Chronicle s) : st'.Chronicle s := by
  cases he with
  | stay hm _ hq _ => exact h.thinned (hq s) fun m' hm' _ => hm m' hm'
  | enter m hw hm hi hq _ =>
    have hq := hq s
    by_cases hs : s = m.stream
    swap
    · rw [if_neg hs] at hq
      refine h.thinned hq fun m' hm' hs' => ⟨m', ?_, .inl rfl⟩
      exact ((mem_insert hi).mp hm').resolve_right fun he => hs (he ▸ hs'.symm)
    rw [if_pos hs] at hq
    rw [← hs] at hm
    have hs := hs.symm
    have hnext := h.next
    -- no stored message has the number of the new one
    have hne : ∀ m' ∈ st.messages, m'.stream = s → m'.seq ≠ m.seq := fun m' hm' hs' he => by
      have hkey : m'.key = m.key := by rw [MessageRow.key, MessageRow.key, hs', hs, he]
      have hfree := find?_of_insert hi
      rw [← hkey, find?_of_mem hm'] at hfree
      cases hfree
    refine ⟨by omega, fun m' hm' hs' => ?_, fun m₁ hm₁ m₂ hm₂ hs₁ hs₂ hle hlt => ?_⟩
    · rcases (mem_insert hi).mp hm' with hold | rfl
      · exact h.first m' hold hs'
      · omega
    · rcases (mem_insert hi).mp hm₁ with hold₁ | rfl
      · rcases (mem_insert hi).mp hm₂ with hold₂ | rfl
        · have := hne m₂ hold₂ hs₂
          exact h.order m₁ hold₁ m₂ hold₂ hs₁ hs₂ hle (by omega)
        · have := publishedAt_le_clamp hold₁ env.nowMs
          rw [hw.publishedAt, hs, ← hs₁]
          exact this
      · rcases (mem_insert hi).mp hm₂ with hold₂ | rfl
        · exact absurd (by omega) (hne m₂ hold₂ hs₂)
        · exact le_rfl

theorem Record.chronicle (hr : Record env req st st') (hs : st.Sound) (hs' : st'.Sound) (h : st.Chronicle s) :
    st'.Chronicle s := by
  cases hr with
  | entries he =>
    clear hs'
    induction he with
    | refl => exact h
    | tail _ he ih => exact he.chronicle ih
  | thinned _ ht => exact h.thinned (nextOf_congr (by rw [ht.seq])) fun m' hm' _ => ht.rows m' hm'
  | created row hc =>
    obtain ⟨next, -, hseq⟩ := hc.seq
    by_cases hname : s = row.name
    swap
    · exact h.thinned (nextOf_congr ((hseq s).trans (if_neg hname))) fun m' hm' _ => ⟨m', hc.messages ▸ hm', .inl rfl⟩
    subst hname
    have hnone : ∀ m ∈ st'.messages, m.stream ≠ row.name := fun m hm hms => by
      have := hc.vacant hs m.seq
      rw [← hms, stored_of_mem (hc.messages ▸ hm)] at this
      cases this
    have hrow : st'.streamSeq.find? row.name = some ⟨row.name, next⟩ := by rw [hseq, if_pos rfl]
    refine ⟨?_, fun m hm hms => absurd hms (hnone m hm), fun m hm _ _ hms => absurd hms (hnone m hm)⟩
    rw [nextOf_of_seq hrow]
    exact hs'.next _ _ hrow
  | deleted name hd =>
    by_cases hname : s = name
    swap
    · exact h.thinned (nextOf_congr ((hd.seq s).trans (if_neg hname))) fun m' hm' _ => ⟨m', hd.messages ▸ hm', .inl rfl⟩
    subst hname
    have hnext : st'.nextOf s = 1 := by rw [Store.nextOf, hd.seq, if_pos rfl]; rfl
    refine ⟨hnext.ge, fun m hm hms => h.first m (hd.messages ▸ hm) hms, fun m hm m' hm' hms hms' hle hlt => ?_⟩
    have := h.first m' (hd.messages ▸ hm') hms'
    omega

end Chronicle

/-- Every stream keeps its order along every run. -/
theorem Runs.chronicle (r : Runs h b) (s : Bytes) : b.store.Chronicle s :=
  Runs.holds (C := fun _ => True) (I := fun st => st.Chronicle s)
    ⟨le_rfl, fun _ hm => absurd hm List.not_mem_nil, fun _ hm => absurd hm List.not_mem_nil⟩
    (fun _ _ h => ⟨h.next, h.first, h.order⟩)
    (fun _ _ _ _ hs hs' _ hcom hi => (applyRequest_record rfl hcom.run).chronicle (hs.uncarried []) hs' hi) r
    fun _ _ => trivial

/-! ## Sizes -/

/-- Every message is as large as its body. -/
def Store.Sized (st : Store) : Prop := ∀ m ∈ st.messages, m.size = m.body.length

theorem Record.sized {st st' : Store} (hr : Record env req st st') (h : st.Sized) : st'.Sized := by
  refine hr.all ?_ ?_ h
  · rintro m' m (rfl | rfl) hm <;> exact hm
  · intro st m hall hw
    cases hw with
    | published hp => exact hp.size
    | copied origin ho hc =>
      rw [hc.size, hc.body]
      exact hall origin ho

theorem exec_sized {s : Step} (h : b.store.Sized) : (b.exec s).1.store.Sized := by
  rcases exec_cases b s with ⟨reply, st, hcom⟩ | ⟨hst, -⟩
  · have hsized : st.Sized := (applyRequest_record rfl hcom.run).sized h
    rw [hcom.post]
    exact hsized
  · rw [hst]
    exact h

theorem Runs.sized (r : Runs h b) : b.store.Sized :=
  History.invariant (C := fun _ _ => True) (I := fun _ b => b.store.Sized) r (fun _ _ _ _ => trivial)
    (fun _ hm => absurd hm List.not_mem_nil) fun _ _ _ hb _ => exec_sized hb

/-! ## Positive numbers -/

/-- Every message has a number from 1 on. -/
def Store.Positive (st : Store) : Prop := ∀ m ∈ st.messages, 1 ≤ m.seq

theorem Store.Sound.nextOf {st : Store} (hs : st.Sound) (s : Bytes) : 1 ≤ st.nextOf s := by
  unfold Store.nextOf
  cases hr : st.streamSeq.find? s with
  | none => exact le_rfl
  | some r => exact hs.next s r hr

theorem positive_of_remains {st st' : Store} (hrows : ∀ m' ∈ st'.messages, ∃ m ∈ st.messages, m'.Remains m)
    (h : st.Positive) : st'.Positive := by
  intro m' hm'
  obtain ⟨m, hm, hr⟩ := hrows m' hm'
  rw [show m'.seq = m.seq from congrArg Prod.snd hr.key]
  exact h m hm

theorem Entries.positive {st st' : Store} (h : Entries env st st') (hn : ∀ s, 1 ≤ st.nextOf s) (hst : st.Positive) :
    (∀ s, 1 ≤ st'.nextOf s) ∧ st'.Positive := by
  induction h with
  | refl => exact ⟨hn, hst⟩
  | tail _ he ih =>
    obtain ⟨hnext, hnum⟩ := ih
    cases he with
    | stay hm _ hq => exact ⟨fun s => (hq s).symm ▸ hnext s, positive_of_remains hm hnum⟩
    | enter m _ hseq hi hq =>
      refine ⟨fun s => ?_, fun m' hm' => ?_⟩
      · have := hnext s
        rw [hq]
        split <;> omega
      · rcases (mem_insert hi).mp hm' with hold | rfl
        · exact hnum m' hold
        · rw [hseq]
          exact hnext _

theorem Record.positive {st st' : Store} (hr : Record env req st st') (hs : st.Sound) (h : st.Positive) :
    st'.Positive := by
  cases hr with
  | entries he => exact (Entries.positive he hs.nextOf h).2
  | thinned _ ht => exact positive_of_remains ht.rows h
  | created _ hc => rwa [Store.Positive, hc.messages]
  | deleted _ hd => rwa [Store.Positive, hd.messages]

theorem Runs.positive (r : Runs h b) : b.store.Positive :=
  Runs.holds (C := fun _ => True) (I := Store.Positive) (fun _ hm => absurd hm List.not_mem_nil) (fun _ _ h => h)
    (fun _ _ _ _ hs _ _ hcom h => (applyRequest_record rfl hcom.run).positive (hs.uncarried []) h) r
    fun _ _ => trivial

/-! ## Receipts -/

/-- The receipt `a` of the line `r` tells the truth about the store `st'` the command left, which it found as `st`: it
is that of a message the line stored, or that of the message whose key the line repeats. -/
def Describes (stream : Bytes) (st st' : Store) (r : PublishReq) (a : Ack) : Prop :=
  ∃ m ∈ st'.messages, m.stream = stream ∧ a = ⟨stream, m.seq, m.id, m.traceId, a.duplicate, m.publishedAt⟩ ∧
    (a.duplicate = true ∧ r.msgId ≠ [] ∧ m.dedupKey = some r.msgId ∨
      a.duplicate = false ∧ m.subject = r.subject ∧ m.body = r.body ∧ st.messages.find? (stream, m.seq) = none)

/-- The numbers of the receipts that are not duplicates. -/
def freshSeqs (as : List Ack) : List ℤ := (as.filter fun a => !a.duplicate).map Ack.seq

section Receipts

variable {lc : LoadedConfig} {st st₁ st' : Store}

theorem Describes.mono (h : Describes stream st₁ st' r a) (hm : ∀ m ∈ st.messages, m ∈ st₁.messages) :
    Describes stream st st' r a := by
  obtain ⟨m, hmem, hms, ha, hc⟩ := h
  refine ⟨m, hmem, hms, ha, hc.imp_right fun ⟨hd, hsub, hbody, hfree⟩ => ⟨hd, hsub, hbody, ?_⟩⟩
  exact find?_eq_none.mpr fun x hx => find?_eq_none.mp hfree x (hm x hx)

theorem Lines.kept (h : Lines env lc st xs st') : ∀ m ∈ st.messages, m ∈ st'.messages := by
  induction h with
  | nil => exact fun _ hm => hm
  | cons hrun _ ih =>
    refine fun m hm => ih m ?_
    rcases publishTx_run hrun with ⟨_, e, -, rfl, -⟩ | ⟨-, m', hp⟩
    · exact hm
    · obtain ⟨row, msgs, e, -, -, hi, -, -, -, rfl⟩ := hp.appended
      exact (mem_insert hi).mpr (.inl hm)

theorem original_eq_some (h : st.original lc r = some m) :
    m ∈ st.messages ∧ m.stream = lc.name ∧ r.msgId ≠ [] ∧ m.dedupKey = some r.msgId := by
  unfold Store.original at h
  split at h
  · rename_i hc
    have hp := List.find?_some h
    rw [Bool.and_eq_true, beq_iff_eq, beq_iff_eq] at hp
    exact ⟨List.mem_of_find?_eq_some h, hp.1, hc.1, hp.2⟩
  · cases h

/-- One line: its receipt, and the number it reports. -/
theorem publishTx_describes (h : publishTxWithConfig env lc r st = .ok (a, st')) :
    Describes lc.name st st' r a ∧
      allocationsOf lc.name st'.carriers = allocationsOf lc.name st.carriers ++ freshSeqs [a] := by
  rcases publishTx_run h with ⟨m, e, ho, rfl, rfl, -, hn⟩ | ⟨-, m, hp⟩
  · obtain ⟨hm, hs, hne, hk⟩ := original_eq_some ho
    refine ⟨⟨m, hm, hs, rfl, .inl ⟨rfl, hne, hk⟩⟩, ?_⟩
    have he : e.allocation = none := by unfold Event.allocation; rw [hn]
    show allocationsOf lc.name (st.carriers ++ [e]) = _
    rw [allocationsOf_append, allocationsOf_none (List.forall_mem_singleton.mpr he)]
    rfl
  · obtain ⟨row, msgs, e, -, -, hi, -, hn, hk, rfl⟩ := hp.appended
    have he : e.allocation = some (m.stream, m.seq) := by
      unfold Event.allocation
      rw [hn]
      exact congrArg some hk
    have hfree : st.messages.find? (lc.name, m.seq) = none := by
      rw [← hp.stream]
      exact find?_of_insert hi
    obtain rfl := hp.ack
    refine ⟨⟨m, (mem_insert hi).mpr (.inr rfl), hp.stream, by rw [hp.stream],
      .inr ⟨rfl, hp.subject, hp.body, hfree⟩⟩, ?_⟩
    show allocationsOf lc.name (st.carriers ++ [e]) = _
    rw [allocationsOf_append, allocationsOf_single he, if_pos hp.stream]
    rfl

/-- **Lines.** One receipt for each line, in the order of the lines. -/
theorem Lines.receipts (h : Lines env lc st xs st') :
    List.Forall₂ (Describes lc.name st st') (xs.map LineRun.req) (xs.map LineRun.ack) ∧
      allocationsOf lc.name st'.carriers = allocationsOf lc.name st.carriers ++ freshSeqs (xs.map LineRun.ack) := by
  induction h with
  | nil => exact ⟨.nil, by simp [freshSeqs]⟩
  | @cons r a st st₁ st' xs hrun hs ih =>
    obtain ⟨hd, ha⟩ := publishTx_describes hrun
    have hkept : ∀ m ∈ st.messages, m ∈ st₁.messages := Lines.kept (.cons hrun (.nil st₁))
    refine ⟨.cons ?_ (ih.1.imp fun _ _ hx => hx.mono hkept), ?_⟩
    · obtain ⟨m, hmem, hrest⟩ := hd
      exact ⟨m, hs.kept m hmem, hrest⟩
    · rw [ih.2, ha, List.append_assoc]
      simp only [freshSeqs, ← List.map_append, ← List.filter_append]
      rfl

end Receipts

/-- A publish or a batch left everything as it was, or it stored all its lines and its receipts say so. -/
def Receipted (v : Visit) (stream : Bytes) (rs : List PublishReq) : Prop :=
  (v.post.store = v.pre.store ∧ v.out.events = [] ∧ ∀ reply es, v.out ≠ .ok reply es) ∨
  ∃ reply es, v.out = .ok reply es ∧ List.Forall₂ (Describes stream v.pre.store v.post.store) rs reply.receipts ∧
    allocationsOf stream es = freshSeqs reply.receipts

theorem exec_receipted {rs : List PublishReq} (hreq : step.req.lines = some (stream, rs)) :
    Receipted (visit Broker.exec b step) stream rs := by
  rcases exec_cases b step with ⟨reply, st, hcom⟩ | ⟨hst, -, hev, hout⟩
  · obtain ⟨row, hrow, hs, hreqs, hacks⟩ := publish_lines hreq hcom.run
    have hname : row.name = stream := find?_key hrow
    have hrec := hs.receipts
    rw [hreqs, hacks, show row.loaded.name = stream from hname] at hrec
    refine .inr ⟨reply, st.carriers, hcom.out, ?_, hrec.2⟩
    have hpost : (b.exec step).1.store = { st with carriers := [] } := by rw [hcom.post]
    show List.Forall₂ (Describes stream b.store (b.exec step).1.store) rs reply.receipts
    rw [hpost]
    exact hrec.1
  · exact .inl ⟨hst, hev, hout⟩

/-! ## Incarnations -/

/-- **Run.** As long as a stream has its counter, its numbers are drawn from it. -/
theorem draws_along {b₀ : Broker} (r : History Broker.exec b₀ h b) (h0 : b₀.store.streamSeq.find? s ≠ none)
    (hlive : ∀ w ∈ h, w.post.store.streamSeq.find? s ≠ none) :
    b.store.streamSeq.find? s ≠ none ∧ Draws (b₀.store.nextOf s) (allocated s h) (b.store.nextOf s) := by
  induction r with
  | start => exact ⟨h0, .nil _⟩
  | @step h b act r ih =>
    obtain ⟨hb, hd⟩ := ih fun w hw => hlive w (List.mem_append_left _ hw)
    have hpost := hlive (visit Broker.exec b act) (List.mem_append_right _ (List.mem_singleton.mpr rfl))
    obtain ⟨first, hn, hfirst⟩ := exec_numbered hpost
    rw [hfirst hb] at hn
    refine ⟨hpost, ?_⟩
    rw [allocated, List.flatMap_append, List.flatMap_singleton]
    exact hd.append hn.draws

/-- **Publish order.** In the visits `h` the stream `s` is not deleted; the first of them may create it. What they
stored in it has consecutive numbers, in the order of the commits; a visit that did not commit took none; what of it is
still stored is in the order of its time stamps; and each publish and batch was all or nothing, with a receipt for each
line. -/
theorem publish_order {h₀ h : List Visit} {b : Broker} {s : Bytes} (r : Runs (h₀ ++ h) b)
    (hlive : ∀ v ∈ h, v.post.store.streamSeq.find? s ≠ none) :
    (∃ first, Draws first (allocated s h) (b.store.nextOf s)) ∧
    (∀ v ∈ h, ∃ first, Numbered s first v) ∧
    (∀ v ∈ h, (∀ reply es, v.out ≠ .ok reply es) → v.post.store = v.pre.store ∧ allocationsOf s v.out.events = []) ∧
    (∀ m ∈ b.store.messages, ∀ m' ∈ b.store.messages, m.stream = s → m'.stream = s → m.seq ∈ allocated s h →
      m'.seq ∈ allocated s h → m.seq ≤ m'.seq → m.publishedAt ≤ m'.publishedAt) ∧
    ∀ v ∈ h, ∀ rs, v.act.req.lines = some (s, rs) → Receipted v s rs := by
  have hmem : ∀ v ∈ h, v = visit Broker.exec v.pre v.act := fun v hv => by
    obtain ⟨_, _, -, -, hv, -⟩ := r.at_mem (List.mem_append_right h₀ hv)
    exact hv
  have hnum : ∀ v ∈ h, ∃ first, Numbered s first v := fun v hv => by
    have hpost := hlive v hv
    rw [hmem v hv] at hpost ⊢
    obtain ⟨first, hn, -⟩ := exec_numbered hpost
    exact ⟨first, hn⟩
  have hdraws : ∃ first, Draws first (allocated s h) (b.store.nextOf s) := by
    cases h with
    | nil => exact ⟨_, .nil _⟩
    | cons v h =>
      -- the first visit may have created the counter, so the run starts after it
      obtain ⟨-, -, hrest⟩ := r.at_visit
      obtain ⟨first, hn⟩ := hnum v List.mem_cons_self
      have hd := (draws_along hrest (hlive v List.mem_cons_self) fun w hw => hlive w (List.mem_cons_of_mem _ hw)).2
      exact ⟨first, hn.draws.append hd⟩
  refine ⟨hdraws, hnum, fun v hv hout => ?_, fun m hm m' hm' hs hs' _ hq' hle => ?_, fun v hv rs hreq => ?_⟩
  · rw [hmem v hv] at hout ⊢
    rcases exec_cases v.pre v.act with ⟨reply, st, hcom⟩ | ⟨hst, -, hev, -⟩
    · exact absurd hcom.out (hout reply st.carriers)
    · refine ⟨hst, ?_⟩
      show allocationsOf s (v.pre.exec v.act).2.events = []
      rw [hev]
      rfl
  · obtain ⟨first, hd⟩ := hdraws
    exact (r.chronicle s).order m hm m' hm' hs hs' hle (hd.mem hq').2
  · rw [hmem v hv]
    exact exec_receipted hreq

/-- A stream that is deleted and created again, with a clock that goes back; one batch is refused at its second line,
and one repeats a key. -/
def clockLife : List (ℤ × Request) :=
  [(100, aCreate), (101, .publish aStream { subject := str "a", body := [1] }),
    (102, .deleteStream aStream aStream []), (103, .reapChunk aStream),
    (104, aCreate),
    (105, .publish aStream { subject := str "a", body := [2], msgId := str "k" }),
    (50, .publishBatch aStream [{ subject := str "b", body := [3] }, { subject := [], body := [] }]),
    (51, .publishBatch aStream [{ subject := str "b", body := [4] },
      { subject := str "c", body := [5], msgId := str "k" }])]

theorem publish_order_clockLife :
    ((playState clockLife).store.messagesOf aStream).map (fun m => (m.seq, m.publishedAt)) = [(2, 105), (3, 105)] ∧
    ∃ first, Draws first (allocated aStream ((play clockLife).drop 4)) ((playState clockLife).store.nextOf aStream) :=
  have hruns : Runs ((play clockLife).take 4 ++ (play clockLife).drop 4) (playState clockLife) := by
    rw [List.take_append_drop]
    exact runs_play clockLife
  ⟨by decide +kernel, (publish_order hruns (by decide +kernel)).1⟩

end Messq

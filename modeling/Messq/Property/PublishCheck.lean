import Messq.Verify.Publish
import Messq.Property.Front
import Messq.Property.Sequence

/-! # What the publish checker finds

The rules P2 to P5 hold along every run in which deleted streams are reaped before their names come back and no
dead-letter stream starts again at 1, but P1 does not: a purge by subject takes messages from the middle of a stream,
and so does retention when a delivery row holds an older message back. As long as messages leave from the front, the
checker finds nothing (`publish_check_clean`). -/

namespace Messq

open Lib Table Relation

variable {b : Broker} {h : List Visit} {req : Request} {act : Step} {s : Bytes} {env : Env}

/-! ## Keys -/

/-- A key belongs to one message of its stream. -/
def Store.Keyed (st : Store) : Prop :=
  ∀ m ∈ st.messages, ∀ m' ∈ st.messages, m.stream = m'.stream → m.dedupKey = m'.dedupKey → m.dedupKey ≠ none → m = m'

section Keyed

variable {st st' : Store}

theorem Store.Keyed.thinned (h : st.Keyed) (hm : ∀ m' ∈ st'.messages, ∃ m ∈ st.messages, m'.Remains m) : st'.Keyed := by
  -- what still has a key was not changed
  have hback : ∀ m ∈ st'.messages, m.dedupKey ≠ none → m ∈ st.messages := fun m hmem hk => by
    obtain ⟨m₀, hm₀, rfl | rfl⟩ := hm m hmem
    · exact hm₀
    · exact absurd rfl hk
  exact fun m hm m' hm' hs he hk => h m (hback m hm hk) m' (hback m' hm' (he ▸ hk)) hs he hk

theorem Entry.keyed (he : Entry env st st') (h : st.Keyed) : st'.Keyed := by
  cases he with
  | stay hm => exact h.thinned hm
  | enter m hw _ hi =>
    -- the new message has no key, or one that is new to its stream
    have hnew : m.dedupKey ≠ none → ∀ m' ∈ st.messages, m'.stream = m.stream → m'.dedupKey ≠ m.dedupKey := by
      cases hw with
      | published hp => exact hp.single
      | copied _ _ _ hn => exact fun hk => absurd hn hk
    intro m₁ hm₁ m₂ hm₂ hs heq hk
    rcases (mem_insert hi).mp hm₁ with h₁ | rfl
    · rcases (mem_insert hi).mp hm₂ with h₂ | rfl
      · exact h m₁ h₁ m₂ h₂ hs heq hk
      · exact absurd heq (hnew (heq ▸ hk) m₁ h₁ hs)
    · rcases (mem_insert hi).mp hm₂ with h₂ | rfl
      · exact absurd heq.symm (hnew hk m₂ h₂ hs.symm)
      · rfl

theorem Record.keyed (hr : Record env req st st') (h : st.Keyed) : st'.Keyed := by
  cases hr with
  | entries he =>
    induction he with
    | refl => exact h
    | tail _ he ih => exact he.keyed ih
  | thinned _ ht => exact h.thinned ht.rows
  | created _ hc =>
    unfold Store.Keyed
    rwa [hc.messages]
  | deleted _ hd =>
    unfold Store.Keyed
    rwa [hd.messages]

theorem Runs.keyed (r : Runs h b) : b.store.Keyed :=
  Runs.holds (C := fun _ => True) (I := Store.Keyed) (fun _ hm => absurd hm List.not_mem_nil) (fun _ _ h => h)
    (fun _ _ _ _ _ _ _ hcom hi => (applyRequest_record rfl hcom.run).keyed hi) r fun _ _ => trivial

theorem checkKeys_nil (h : st.Keyed) : st.checkKeys = [] := by
  have hnodup : (st.messages.rows.filterMap fun m => m.dedupKey.map fun k => (m.stream, k)).Nodup := by
    refine List.pairwise_filterMap.mpr ((nodup_rows st.messages).imp_of_mem fun {m m'} hm hm' hne p hp p' hp' he => ?_)
    obtain ⟨k, hk, rfl⟩ := Option.map_eq_some_iff.mp hp
    obtain ⟨k', hk', rfl⟩ := Option.map_eq_some_iff.mp hp'
    obtain ⟨hs, rfl⟩ := Prod.mk.inj he
    exact hne (h m hm m' hm' hs (hk.trans hk'.symm) (by simp [hk]))
  refine List.filterMap_eq_nil_iff.mpr fun p _ => if_neg ?_
  exact not_lt.mpr (List.nodup_iff_count_le_one.mp hnodup p)

end Keyed

/-! ## Marks of deletions -/

/-- The numbers of a name go on above the mark its last deletion left. -/
def Store.Resumed (st : Store) (s : Bytes) : Prop :=
  ∀ n, (st.metaTable.find? (.seqHwm s)).map MetaRow.v = some (.int n) → n < st.upcoming s

/-- Only a deletion writes the mark. -/
theorem effect_hwm {reply : Reply} {st st' : Store} (he : Effect env st req reply st') (s : Bytes) :
    st'.metaTable.find? (.seqHwm s) = st.metaTable.find? (.seqHwm s) ∨ StreamDeleted st s st' := by
  cases he.shape with
  | same => exact .inl rfl
  | created he => exact .inl (by rw [he.metaTable])
  | @deleted name _ _ _ he =>
    by_cases hs : s = name
    · exact .inr (hs ▸ he)
    · exact .inl (he.other _ (by simp) (by simpa using hs))
  | reaped _ he =>
    rcases he.metaTable with hm | ⟨hm, -⟩
    · exact .inl (by rw [hm])
    · exact .inl (by rw [hm, if_neg (by simp)])
  | confined he => exact .inl (he.hwm s)
  | purged he => exact .inl (by rw [he.metaTable])
  | restarted he => exact .inl (he.other _ (by simp))
  | moved _ he => exact .inl (by rw [he.background.metaTable])

theorem Runs.resumed (r : Runs h b) (hf : ∀ v ∈ h, SeedsFresh v) (s : Bytes) : b.store.Resumed s := by
  refine Runs.holds (C := SeedsFresh) (I := fun st => st.Resumed s) (fun n hn => by cases hn) (fun _ _ h => h)
    (fun b step reply st hs _ hv hcom hi n hn => ?_) r hf
  have hle := (effect_drawn (hs.uncarried []) rfl (hcom.seedsFresh hv) hcom.run).le s
  rcases effect_hwm hcom.effect s with hm | hd
  · rw [hm] at hn
    exact (hi n hn).trans_le hle
  · have hq : st.streamSeq.find? s = none := by rw [hd.seq, if_pos rfl]
    simp only [Store.upcoming, hq, hn]
    omega

/-! ## Sweeps -/

/-- The keys of the stream are not older than `t` less its window. -/
def Store.SweptBy (st : Store) (s : Bytes) (t : ℤ) : Prop :=
  ∀ row, st.streams.find? s = some row → ∀ m ∈ st.messages, m.stream = s → m.dedupKey ≠ none →
    t - row.dedupWindowMs ≤ m.publishedAt

/-- The request sweeps keys. -/
def Request.sweepsKeys : Request → Bool
  | .sweepDedup _ => true
  | _ => false

/-- The visit is a sweep of the stream that cleared fewer keys than it may. -/
def Visit.sweptOut (v : Visit) (s : Bytes) : Bool :=
  match v.act.req, v.out with
  | .sweepDedup name, .ok (.swept n) _ => name == s && decide (n < sweepBound)
  | _, _ => false

section Sweep

variable {st st' : Store} {t : ℤ}

/-- A sweep only takes keys away, and when it takes fewer than it may it leaves none whose window is over. -/
theorem sweepDedup_run {n : ℕ} (h : sweepDedup env s st = .ok (n, st')) : st'.streams = st.streams ∧
    (∀ m' ∈ st'.messages, ∃ m ∈ st.messages, m'.Remains m) ∧ (n < sweepBound → st'.SweptBy s env.nowMs) := by
  simp only [sweepDedup, run_get_bind] at h
  cases hrow : st.streams.find? s with
  | none => simp only [hrow, refuse_run] at h
  | some row =>
    simp only [hrow, run_set_bind, run_pure] at h
    obtain ⟨rfl, rfl⟩ := h
    refine ⟨rfl, fun m' hm' => ?_, fun hn row' hr' m' hm' hs hk => ?_⟩
    · obtain ⟨m, hm, ⟨-, rfl⟩ | ⟨-, rfl⟩⟩ := mem_redacted.mp hm'
      · exact ⟨m, hm, .inr rfl⟩
      · exact ⟨m', hm, .inl rfl⟩
    · obtain rfl : row = row' := Option.some.inj (hrow.symm.trans hr')
      obtain ⟨m, hm, ⟨-, rfl⟩ | ⟨hhit, rfl⟩⟩ := mem_redacted.mp hm'
      · exact absurd rfl hk
      by_contra hold
      -- the window was over, so the key was among those the sweep took
      rw [List.length_map, List.length_take] at hn
      rw [decide_eq_false_iff_not, List.take_of_length_le (by omega)] at hhit
      refine hhit (List.mem_map_of_mem ((List.mem_insertionSort _).mpr
        (List.mem_filter.mpr ⟨mem_messagesOf.mpr ⟨hm, hs⟩, ?_⟩)))
      rw [Bool.and_eq_true, decide_eq_true_iff]
      exact ⟨not_le.mp hold, Option.isSome_iff_ne_none.mpr hk⟩

theorem Store.SweptBy.thinned (h : st.SweptBy s t) (hr : st'.streams = st.streams)
    (hm : ∀ m' ∈ st'.messages, ∃ m ∈ st.messages, m'.Remains m) : st'.SweptBy s t := by
  intro row hrow m' hm' hs hk
  obtain ⟨m, hmem, rfl | rfl⟩ := hm m' hm'
  · exact h row (hr ▸ hrow) m' hmem hs hk
  · exact absurd rfl hk

theorem exec_sweeps (hk : act.req.sweepsKeys = true) (h : b.store.SweptBy s t) : (b.exec act).1.store.SweptBy s t := by
  rcases exec_cases b act with ⟨reply, st, hcom⟩ | ⟨hst, -⟩
  · cases hreq : act.req with
    | sweepDedup stream =>
      have hrun := hcom.run
      rw [hreq] at hrun
      obtain ⟨n, hrun, -⟩ := run_map.mp hrun
      obtain ⟨hr, hm, -⟩ := sweepDedup_run hrun
      have : st.SweptBy s t := h.thinned hr hm
      rw [hcom.post]
      exact this
    | _ => rw [hreq] at hk; cases hk
  · rwa [hst]

theorem exec_sweptOut (h : Visit.sweptOut (visit Broker.exec b act) s = true) :
    (b.exec act).1.store.SweptBy s act.env.nowMs := by
  unfold Visit.sweptOut at h
  split at h
  · rename_i name n es hreq hout
    have hreq : act.req = .sweepDedup name := hreq
    rw [Bool.and_eq_true, beq_iff_eq, decide_eq_true_iff] at h
    obtain ⟨rfl, hn⟩ := h
    rcases exec_cases b act with ⟨reply, st, hcom⟩ | ⟨-, -, -, hno⟩
    · have hrun := hcom.run
      rw [hreq] at hrun
      obtain ⟨n', hsweep, hreply⟩ := run_map.mp hrun
      obtain ⟨hr, -⟩ := Outcome.ok.inj (hcom.out.symm.trans hout)
      obtain rfl := Reply.swept.inj (hreply.trans hr)
      have : st.SweptBy name act.env.nowMs := (sweepDedup_run hsweep).2.2 hn
      rw [hcom.post]
      exact this
    · exact absurd hout (hno _ _)
  · cases h

/-- **Run.** What one sweep left, the sweeps after it leave. -/
theorem Runs.sweptBy {h₀ h₁ : List Visit} (r : Runs (h₀ ++ h₁) b) (hk : ∀ v ∈ h₁, v.act.req.sweepsKeys = true)
    {v : Visit} (hv : v ∈ h₁) (hout : v.sweptOut s = true) : b.store.SweptBy s v.act.env.nowMs := by
  obtain ⟨l₁, l₂, rfl⟩ := List.append_of_mem hv
  rw [← List.append_assoc] at r
  obtain ⟨-, hvis, r₂⟩ := r.at_visit
  have hpost : v.post.store.SweptBy s v.act.env.nowMs := by
    rw [hvis] at hout ⊢
    exact exec_sweptOut hout
  refine History.invariant (C := fun _ u => u.act.req.sweepsKeys = true)
    (I := fun _ b => b.store.SweptBy s v.act.env.nowMs) r₂ (upheld_of_forall fun u hu => hk u ?_) hpost
    fun _ _ _ hi hu => exec_sweeps hu hi
  exact List.mem_append_right _ (List.mem_cons_of_mem _ hu)

end Sweep

/-! ## The scan -/

section Scan

variable {name : Bytes} {window nowMs sweepMs : ℤ}

/-- A scan finds nothing when each row follows the one before it. -/
theorem checkRows_nil (rows : List MessageRow) {prevSeq prevPub : ℤ}
    (hfirst : ∀ m ∈ rows.head?, (prevSeq ≥ 0 → m.seq = prevSeq + 1) ∧ (prevPub ≥ 0 → prevPub ≤ m.publishedAt))
    (hchain : rows.IsChain fun a b => b.seq = a.seq + 1 ∧ a.publishedAt ≤ b.publishedAt)
    (hsize : ∀ m ∈ rows, m.size = m.body.length)
    (hkey : ∀ m ∈ rows, m.dedupKey ≠ none → window > 0 → nowMs - window - sweepMs ≤ m.publishedAt) :
    checkRows name window nowMs sweepMs prevSeq prevPub rows = [] := by
  induction rows generalizing prevSeq prevPub with
  | nil => rfl
  | cons m ms ih =>
    obtain ⟨hseq, hpub⟩ := hfirst m rfl
    have hrow : checkRow name window nowMs sweepMs prevSeq prevPub m = [] := by
      have hsz := hsize m List.mem_cons_self
      have hk := hkey m List.mem_cons_self
      rw [checkRow, if_neg, if_neg, if_neg, if_neg]
      · rfl
      · rintro ⟨hsome, hw, hlt⟩
        have := hk (Option.isSome_iff_ne_none.mp hsome) hw
        omega
      · exact fun hne => hne hsz
      · rintro ⟨h0, hlt⟩
        have := hpub h0
        omega
      · exact fun ⟨h0, hne⟩ => hne (hseq h0)
    rw [checkRows, hrow, List.nil_append]
    refine ih (fun m' hm' => ?_) hchain.tail (fun x hx => hsize x (List.mem_cons_of_mem _ hx))
      fun x hx => hkey x (List.mem_cons_of_mem _ hx)
    cases ms with
    | nil => cases hm'
    | cons m₁ ms =>
      obtain rfl : m₁ = m' := Option.some.inj hm'
      obtain ⟨hlink, -⟩ := List.isChain_cons_cons.mp hchain
      exact ⟨fun _ => hlink.1, fun _ => hlink.2⟩

end Scan

section Stream

variable {st : Store}

/-- What is stored of a stream that takes from the front is numbered without a gap and in the order of its time
stamps. -/
theorem oldest_chain (hs : st.Sound) (hch : st.Chronicle s) (hsol : st.Solid s)
    (hu : st.metaTable.find? (.reap s) = none) :
    (st.oldest s).IsChain fun a b => b.seq = a.seq + 1 ∧ a.publishedAt ≤ b.publishedAt := by
  refine List.isChain_iff_forall_rel_of_append_cons_cons.mpr fun {a b l₁ l₂} hl => ?_
  have hsorted := sorted_oldest st s
  rw [hl] at hsorted
  obtain ⟨-, hab, hbefore⟩ := List.pairwise_append.mp hsorted
  obtain ⟨ha, hb⟩ := List.pairwise_cons.mp hab
  have hlt : a.seq < b.seq := ha b List.mem_cons_self
  have hmem : ∀ x ∈ [a, b], x ∈ st.messages ∧ x.stream = s := fun x hx => by
    refine mem_oldest.mp (hl ▸ List.mem_append_right _ ?_)
    simp only [List.mem_cons, List.not_mem_nil, or_false] at hx ⊢
    tauto
  obtain ⟨hma, hsa⟩ := hmem a (by simp)
  obtain ⟨hmb, hsb⟩ := hmem b (by simp)
  refine ⟨?_, hch.whole hs hu hma hmb hsa hsb hlt.le⟩
  have hfound : ∀ x ∈ st.messages, x.stream = s → st.messages.find? (s, x.seq) ≠ none := fun x hx hxs => by
    rw [show (s, x.seq) = x.key from Prod.ext hxs.symm rfl, find?_of_mem hx]
    exact Option.some_ne_none x
  obtain ⟨r, hr, -, hnext⟩ := hs.stored s b.seq hu (hfound b hmb hsb)
  -- the number after `a` is stored; it is the one of `b`, since nothing stands between the two
  obtain ⟨x, hx⟩ := Option.ne_none_iff_exists'.mp
    (hsol a.seq (a.seq + 1) (hfound a hma hsa) (by omega) (by rw [nextOf_of_seq hr]; omega))
  have hkx := find?_key hx
  obtain ⟨hxs, hxq⟩ := Prod.mk.inj hkx
  have hxl : x ∈ l₁ ++ a :: b :: l₂ := hl ▸ mem_oldest.mpr ⟨mem_of_find? hx, hxs⟩
  have hxq : x.seq = a.seq + 1 := hxq
  rcases List.mem_append.mp hxl with h₁ | h₁
  · have := hbefore x h₁ a List.mem_cons_self
    omega
  rcases List.mem_cons.mp h₁ with rfl | h₂
  · omega
  rcases List.mem_cons.mp h₂ with rfl | h₃
  · exact hxq
  · have := (List.pairwise_cons.mp hb).1 x h₃
    omega

theorem checkCounter_nil (hs : st.Sound) (hu : st.metaTable.find? (.reap s) = none) (hres : st.Resumed s)
    (hseq : st.streamSeq.find? s ≠ none) :
    st.checkCounter s (((st.oldest s).getLast?.map MessageRow.seq).getD (-1)) = [] := by
  obtain ⟨r, hr⟩ := Option.ne_none_iff_exists'.mp hseq
  have hlast : ((st.oldest s).getLast?.map MessageRow.seq).getD (-1) < r.next := by
    cases hl : (st.oldest s).getLast? with
    | none =>
      have := hs.next s r hr
      simp only [Option.map_none, Option.getD_none]
      omega
    | some m =>
      obtain ⟨hm, hms⟩ := mem_oldest.mp (List.mem_of_getLast? hl)
      obtain ⟨r', hr', -, hlt⟩ := hs.stored s m.seq hu (by
        rw [show (s, m.seq) = m.key from Prod.ext hms.symm rfl, find?_of_mem hm]
        exact Option.some_ne_none m)
      rw [hr] at hr'
      cases hr'
      exact hlt
  simp only [Store.checkCounter, hr]
  rw [if_neg (not_le.mpr hlast), List.nil_append]
  split
  · rename_i hwm hm
    have := hres hwm hm
    simp only [Store.upcoming, hr] at this
    exact if_neg (not_le.mpr this)
  · rfl

theorem checkStats_nil (hc : st.Counted) : st.checkStats s (st.oldest s) = [] := by
  unfold Store.checkStats
  split
  · rfl
  · rename_i r hr
    have hcounts := hc.exact s r hr
    have hperm : Lib.tally MessageRow.size (st.oldest s) = st.tally s := tally_perm _ (List.perm_insertionSort _ _)
    rw [← hperm] at hcounts
    obtain ⟨hmsgs, hbytes⟩ := Prod.mk.inj hcounts
    rw [if_neg]
    rintro (hne | hne)
    · exact hne hmsgs
    · exact hne hbytes

end Stream

/-- In a run in which messages leave streams from the front, deleted streams are reaped before their names come back and
no dead-letter stream starts again at 1, and which ends with dedup sweeps until one of them runs short for every stream,
the checker finds nothing. -/
theorem publish_check_clean {h₀ h₁ : List Visit} {b : Broker} (r : Runs (h₀ ++ h₁) b)
    (hall : ∀ v ∈ h₀ ++ h₁, Orderly v ∧ SeedsFresh v) (nowMs sweepMs : ℤ)
    (hsweeps : ∀ v ∈ h₁, v.act.req.sweepsKeys = true ∧ nowMs - sweepMs ≤ v.act.env.nowMs)
    (hswept : ∀ row ∈ b.store.streams, row.dedupWindowMs > 0 → ∃ v ∈ h₁, v.sweptOut row.name = true) :
    b.store.checkPublish nowMs sweepMs = [] := by
  have hord : ∀ v ∈ h₀ ++ h₁, Orderly v := fun v hv => (hall v hv).1
  have hs := r.sound
  have hc := r.counted fun v hv => ⟨(hord v hv).1, (hord v hv).2.1⟩
  refine List.append_eq_nil_iff.mpr ⟨List.flatMap_eq_nil_iff.mpr fun row hrow => ?_, checkKeys_nil r.keyed⟩
  have hrow : row ∈ b.store.streams := (List.mem_insertionSort _).mp hrow
  have hfind : b.store.streams.find? row.name = some row := find?_of_mem hrow
  have hu := hc.unmarked hfind
  have hseq : b.store.streamSeq.find? row.name ≠ none :=
    hs.stats _ (hc.paired _ (.inl (by rw [hfind]; exact Option.some_ne_none row)))
  have hrows : checkRows row.name row.dedupWindowMs nowMs sweepMs (-1) (-1) (b.store.oldest row.name) = [] := by
    refine checkRows_nil _ (fun _ _ => ⟨fun h => by omega, fun h => by omega⟩)
      (oldest_chain hs (r.chronicle _) (r.solid hord rfl) hu) (fun m hm => r.sized m (mem_oldest.mp hm).1)
      fun m hm hk hw => ?_
    obtain ⟨hmem, hms⟩ := mem_oldest.mp hm
    obtain ⟨v, hv, hout⟩ := hswept row hrow hw
    have := r.sweptBy (fun u hu => (hsweeps u hu).1) hv hout row hfind m hmem hms hk
    have := (hsweeps v hv).2
    omega
  have hcounter := checkCounter_nil hs hu (r.resumed (fun v hv => (hall v hv).2) row.name) hseq
  have hstats := checkStats_nil hc (s := row.name)
  show checkRows _ _ _ _ _ _ (b.store.oldest row.name) ++ _ ++ _ = []
  rw [hrows]
  exact List.append_eq_nil_iff.mpr ⟨hcounter, hstats⟩

/-- A stream is purged from the front and swept when the window of its key is over. -/
def frontPurged : List (ℤ × Request) :=
  [(1, aCreate), (2, .publish aStream { subject := str "a", body := [1] }),
    (3, .publish aStream { subject := str "b", body := [2], msgId := str "k" }),
    (4, .publish aStream { subject := str "a", body := [3, 4] }), (5, .purge aStream { upToSeq := some 1 } false []),
    (200000, .sweepDedup aStream)]

theorem publish_check_clean_frontPurged :
    ((playState frontPurged).store.messagesOf aStream).map (fun m => (m.seq, m.dedupKey)) = [(2, none), (3, none)] ∧
    (playState frontPurged).store.checkPublish 210000 60000 = [] :=
  have hruns : Runs ((play frontPurged).take 5 ++ (play frontPurged).drop 5) (playState frontPurged) := by
    rw [List.take_append_drop]
    exact runs_play frontPurged
  ⟨by decide +kernel, publish_check_clean hruns (by decide +kernel) 210000 60000 (by decide +kernel)
    (by decide +kernel)⟩

/-! ## False alarms -/

/-- The messages of one subject are purged. -/
def subjectPurged : List (ℤ × Request) :=
  [(1, aCreate), (2, aPublish),
    (3, .publish aStream { subject := str "b", body := [] }), (4, aPublish),
    (5, .purge aStream { subject := str "b" } false []), (6, .sweepDedup aStream)]

/-- Retention passes over the message that is delivered. -/
def pinnedRetained : List (ℤ × Request) :=
  [(1, .createStream { defaultConfig aStream with maxMsgs := 2 } []),
    (2, aSubscribe),
    (3, aPublish), (4, aFetch 1),
    (5, aPublish), (6, aPublish),
    (7, .retention 100), (8, .sweepDedup aStream)]

/-- Two dead letters, the deletion of their stream to its end, and one more. -/
def sinkReopened : List (ℤ × Request) :=
  aSetup 3 ++
  [(10, aFetch 3), (11, .settle [anItem .term 1 1 1, anItem .term 2 1 1]),
    (12, .deleteStream (dlqName aStream) (dlqName aStream) []), (13, .reapChunk (dlqName aStream)),
    (14, .settle [anItem .term 3 1 1]), (15, .sweepDedup aStream)]

theorem publish_check_false_alarms :
    (Runs (play subjectPurged) (playState subjectPurged) ∧
      (playState subjectPurged).store.checkPublish 7 0 = [.gap aStream 1 3]) ∧
    (Runs (play pinnedRetained) (playState pinnedRetained) ∧
      (playState pinnedRetained).store.checkPublish 9 0 = [.gap aStream 1 3]) ∧
    (Runs (play sinkReopened) (playState sinkReopened) ∧
      (playState sinkReopened).store.checkPublish 16 0 = [.reusedHwm (dlqName aStream) 2 2]) :=
  ⟨⟨runs_play _, by decide +kernel⟩, ⟨runs_play _, by decide +kernel⟩, ⟨runs_play _, by decide +kernel⟩⟩

end Messq

import Messq.Property.Chronicle

/-! # Purge

A purge counts what it is about to remove, and a dry run stops there. On the range path the dry run leaves out what the
real purge reports only after it has deleted, so the two agree just when nothing is in range or the stream has no
consumer (`purge_predicted_iff`). The first sequence number the report gives is the first one left on the range path,
and the first one left above what is removed on the other (`purge_first`). Whatever the report, what is removed is what
was counted (`Removes`). -/

namespace Messq

open Lib Table

variable {dryRun : Bool} {c : ConsumerRow} {d keep next upper : ℤ} {actor stream : Bytes} {pat : Option Subject.Pattern}
  {impact : PurgeResult} {hit : ℤ → Bool}

/-! ## The two paths -/

/-- The report of the range path before anything is deleted. -/
def Store.rangeImpact (st : Store) (stream : Bytes) (upper next : ℤ) : PurgeResult where
  messages := ((st.messagesOf stream).filter fun m => m.seq ≤ upper).length
  bytes := (((st.messagesOf stream).filter fun m => m.seq ≤ upper).map MessageRow.size).sum
  consumersAffected := st.holdersOn stream fun seq => seq ≤ upper
  firstSeqAfter := ((((st.messagesOf stream).filter fun m => m.seq > upper).map MessageRow.seq).min?).getD next
  cursorBefore := st.minCursor stream

/-- The consumers after it. -/
def Store.rangePurged (st : Store) (stream : Bytes) (upper : ℤ) : Store :=
  (st.clampCursors stream (upper + 1)).purged stream (fun seq => seq ≤ upper)
  (st.holdersOn stream fun seq => seq ≤ upper)

/-- The report of the range path when it is done. -/
def Store.rangeDone (st : Store) (stream : Bytes) (upper next : ℤ) : PurgeResult :=
  { st.rangeImpact stream upper next with
    pendingDropped := (st.holdsOn stream fun seq => seq ≤ upper).length
    cursorAfter := (st.rangePurged stream upper).minCursor stream
    clamped := st.minCursor stream ≠ (st.rangePurged stream upper).minCursor stream }

/-- The report of the other path, where the victims come newest first. -/
def Store.scanImpact (st : Store) (stream : Bytes) (victims : List MessageRow) (next : ℤ) : PurgeResult where
  messages := victims.length
  bytes := (victims.map MessageRow.size).sum
  pendingDropped := (st.holdsOn stream fun seq => (victims.map MessageRow.seq).contains seq).length
  consumersAffected := st.holdersOn stream fun seq => (victims.map MessageRow.seq).contains seq
  firstSeqAfter := match victims.map MessageRow.seq with
    | [] => 0
    | newest :: _ =>
      ((((st.messagesOf stream).filter fun m => newest < m.seq && m.seq < next).map MessageRow.seq).min?).getD
      (newest + 1)

/-- What a purge that deleted the sequence numbers `hit` did, and counted. -/
structure Carried (st : Store) (stream : Bytes) (hit : ℤ → Bool) (impact : PurgeResult) (st' : Store) : Prop where
  messages : st'.messages = st.messages.delete fun m => m.stream == stream && hit m.seq
  deliveries : st'.deliveries = st.deliveries.delete fun d => d.stream == stream && hit d.seq
  seq : st'.streamSeq = st.streamSeq
  counted : (impact.messages, impact.bytes) =
    Lib.tally MessageRow.size (st.messages.select fun m => m.stream == stream && hit m.seq)
  dropped : impact.pendingDropped = (st.holdsOn stream hit).length

section Paths

variable {st : Store}

theorem purgeRange_stops (h : dryRun = true ∨ (st.messagesOf stream).filter (fun m => m.seq ≤ upper) = []) :
    purgeRange stream upper next dryRun actor st = .ok (st.rangeImpact stream upper next, st) := by
  rw [purgeRange, run_bind_ok (run_get.mpr ⟨rfl, rfl⟩), run_ite]
  exact if_pos h

theorem filter_messagesOf (hit : ℤ → Bool) : (st.messagesOf stream).filter (fun m => hit m.seq) =
    st.messages.select fun m => m.stream == stream && hit m.seq := by
  rw [Store.messagesOf, Table.select, Table.select, List.filter_filter]
  exact List.filter_congr fun m _ => Bool.and_comm _ _

theorem purgeRange_carried (next : ℤ) (actor : Bytes)
    (hne : (st.messagesOf stream).filter (fun m => m.seq ≤ upper) ≠ []) : ∃ st',
    purgeRange stream upper next false actor st = .ok (st.rangeDone stream upper next, st') ∧
      Carried st stream (fun seq => seq ≤ upper) (st.rangeDone stream upper next) st' := by
  rw [purgeRange, run_bind_ok (run_get.mpr ⟨rfl, rfl⟩), run_ite, if_neg (by simpa using hne)]
  refine ⟨_, rfl, rfl, rfl, rfl, ?_, rfl⟩
  rw [← filter_messagesOf fun seq => decide (seq ≤ upper)]
  rfl

variable {spec : PurgeSpec}

theorem purgeScan_stops (h : dryRun = true ∨ st.purgeVictims stream pat upper spec.keep = []) :
    purgeScan stream pat spec upper next dryRun actor st =
      .ok (st.scanImpact stream (st.purgeVictims stream pat upper spec.keep) next, st) := by
  rw [purgeScan, run_bind_ok (run_get.mpr ⟨rfl, rfl⟩), run_ite]
  exact if_pos h

theorem mem_purgeVictims {m : MessageRow} (h : m ∈ st.purgeVictims stream pat upper keep) :
    m ∈ st.messagesOf stream ∧ m.seq ≤ upper := by
  have := List.mem_of_mem_drop h
  rw [List.mem_insertionSort, List.mem_filter, Bool.and_eq_true, decide_eq_true_eq] at this
  exact ⟨this.1, this.2.1⟩

theorem nodup_purgeVictims (keep : ℤ) : (st.purgeVictims stream pat upper keep).Nodup :=
  ((List.perm_insertionSort _ _).nodup_iff.mpr (st.messages.nodup_select.filter _)).sublist (List.drop_sublist _ _)

theorem purgeScan_carried (next : ℤ) (actor : Bytes) (hne : st.purgeVictims stream pat upper spec.keep ≠ []) : ∃ st',
    purgeScan stream pat spec upper next false actor st =
      .ok (st.scanImpact stream (st.purgeVictims stream pat upper spec.keep) next, st') ∧
    Carried st stream (fun seq => ((st.purgeVictims stream pat upper spec.keep).map MessageRow.seq).contains seq)
      (st.scanImpact stream (st.purgeVictims stream pat upper spec.keep) next) st' := by
  rw [purgeScan, run_bind_ok (run_get.mpr ⟨rfl, rfl⟩), run_ite, if_neg (by simpa using hne)]
  refine ⟨_, rfl, rfl, rfl, rfl, ?_, rfl⟩
  exact tally_perm MessageRow.size (victims_perm (nodup_purgeVictims spec.keep) fun m hm => (mem_purgeVictims hm).1)

/-- A purge without a filter that keeps nothing takes a whole range. -/
def PurgeSpec.Whole (spec : PurgeSpec) : Prop := spec.subject = [] ∧ spec.keep = 0

theorem purge_eq (hv : validatePurgeSpec spec = .ok ()) : purge stream spec dryRun actor st =
    if spec.subject = [] ∧ spec.keep = 0 then
      purgeRange stream (spec.upper (st.headOf stream)) (st.headOf stream) dryRun actor st
    else purgeScan stream spec.pattern spec (spec.upper (st.headOf stream)) (st.headOf stream) dryRun actor st := by
  have hpat : purgePattern spec.subject st = .ok (spec.pattern, st) := by
    unfold purgePattern PurgeSpec.pattern
    by_cases hs : spec.subject = []
    · rw [if_pos hs, if_pos hs]
      rfl
    · rw [if_neg hs, if_neg hs]
      cases hp : Subject.parsePattern spec.subject with
      | ok p => rfl
      | error e =>
        simp only [validatePurgeSpec, hp, if_neg hs] at hv
        split at hv
        · split_ifs at hv <;> cases hv
        · split_ifs at hv <;> cases hv
  have hnone := (purgePattern_run hpat).2.2
  rw [purge, run_bind_ok hpat, run_bind_ok (run_get.mpr ⟨rfl, rfl⟩), run_ite]
  simp only [Option.isNone_iff_eq_none, hnone]

end Paths

/-! ## What is removed -/

/-- As many messages, of that size, and as many delivery rows are gone as the report counts, all of the one stream. -/
structure Removes (st : Store) (stream : Bytes) (impact : PurgeResult) (st' : Store) : Prop where
  kept : st'.messages.rows.Sublist st.messages.rows
  messages : Lib.tally MessageRow.size st'.messages.rows + (impact.messages, impact.bytes) =
    Lib.tally MessageRow.size st.messages.rows
  elsewhere : ∀ m ∈ st.messages, m.stream ≠ stream → m ∈ st'.messages
  keptRows : st'.deliveries.rows.Sublist st.deliveries.rows
  rows : (st'.deliveries.rows.length : ℤ) + impact.pendingDropped = st.deliveries.rows.length
  rowsElsewhere : ∀ d ∈ st.deliveries, d.stream ≠ stream → d ∈ st'.deliveries

section Removed

variable {st st' : Store}

theorem Carried.removes (h : Carried st stream hit impact st') : Removes st stream impact st' where
  kept := by
    rw [h.messages]
    exact List.filter_sublist
  messages := by
    rw [h.messages, h.counted, add_comm]
    exact tally_split MessageRow.size _ st.messages.rows
  elsewhere := fun m hm hne => by
    rw [h.messages, mem_delete]
    exact ⟨hm, by simp [hne]⟩
  keptRows := by
    rw [h.deliveries]
    exact List.filter_sublist
  rows := by
    have hsplit := congrArg Prod.fst (tally_split (fun _ => 0) (fun d : DeliveryRow => d.stream == stream && hit d.seq)
      st.deliveries.rows)
    rw [h.deliveries, h.dropped, add_comm]
    exact hsplit
  rowsElsewhere := fun d hd hne => by
    rw [h.deliveries, mem_delete]
    exact ⟨hd, by simp [hne]⟩

theorem removes_nothing (hm : impact.messages = 0) (hb : impact.bytes = 0) (hd : impact.pendingDropped = 0) :
    Removes st stream impact st where
  kept := .refl _
  messages := by rw [hm, hb]; exact add_zero _
  elsewhere := fun _ hm _ => hm
  keptRows := .refl _
  rows := by rw [hd]; exact add_zero _
  rowsElsewhere := fun _ hd _ => hd

end Removed

/-! ## The dry run -/

/-- The dry run reports what the real purge reports, and the real purge removes what is reported. -/
def PurgePredicted (st : Store) (stream : Bytes) (spec : PurgeSpec) (actor : Bytes) : Prop :=
  ∃ impact st', purge stream spec true actor st = .ok (impact, st) ∧ purge stream spec false actor st =
    .ok (impact, st') ∧
    Removes st stream impact st'

section Dry

variable {st : Store}

theorem minCursor_eq_zero (h : ∀ c ∈ st.consumers, c.stream ≠ stream) : st.minCursor stream = 0 := by
  have hnil : st.consumers.select (fun c => c.stream == stream) = [] :=
    List.filter_eq_nil_iff.mpr fun c hc => by simpa using h c hc
  rw [Store.minCursor, hnil]
  rfl

/-- A purge changes consumers in place, and raises the cursors of the stream. -/
theorem mem_rangePurged {c' : ConsumerRow} (h : c' ∈ (st.rangePurged stream upper).consumers)
    (hs : c'.stream = stream) :
    upper + 1 ≤ c'.cursorSeq := by
  simp only [Store.rangePurged, Store.purged, Store.clampCursors, mem_update] at h
  obtain ⟨c₁, ⟨c₀, -, rfl⟩, rfl⟩ := h
  split_ifs at hs ⊢ <;> simp_all

theorem exists_rangePurged (stream : Bytes) (upper : ℤ) (hc : c ∈ st.consumers) :
    ∃ c' ∈ (st.rangePurged stream upper).consumers, c'.stream = c.stream := by
  simp only [Store.rangePurged, Store.purged, Store.clampCursors, mem_update]
  refine ⟨_, ⟨_, ⟨c, hc, rfl⟩, rfl⟩, ?_⟩
  split_ifs <;> rfl

theorem minCursor_rangePurged (hpos : 0 ≤ upper) (hc : c ∈ st.consumers) (hs : c.stream = stream) :
    (st.rangePurged stream upper).minCursor stream ≠ 0 := by
  obtain ⟨c', hc', hs'⟩ := exists_rangePurged stream upper hc
  have hmem : c' ∈ (st.rangePurged stream upper).consumers.select fun c => c.stream == stream :=
    mem_select.mpr ⟨hc', beq_iff_eq.mpr (hs'.trans hs)⟩
  unfold Store.minCursor
  cases hmin : (((st.rangePurged stream upper).consumers.select fun c => c.stream == stream).map
      ConsumerRow.cursorSeq).min? with
  | none =>
    rw [List.min?_eq_none_iff, List.map_eq_nil_iff] at hmin
    rw [hmin] at hmem
    cases hmem
  | some q =>
    obtain ⟨c₁, hc₁, rfl⟩ := List.mem_map.mp (List.min?_mem hmin)
    obtain ⟨hc₁, hs₁⟩ := mem_select.mp hc₁
    have hle := mem_rangePurged hc₁ (beq_iff_eq.mp hs₁)
    rw [Option.getD_some]
    omega

/-- Without consumers a purge of a range has nothing to add to its preview. -/
theorem rangeDone_eq (hs : st.Sound) (hno : ∀ c ∈ st.consumers, c.stream ≠ stream) :
    st.rangeDone stream upper next = st.rangeImpact stream upper next := by
  have hholds : st.holdsOn stream (fun seq => seq ≤ upper) = [] := by
    refine List.filter_eq_nil_iff.mpr fun d hd hhit => ?_
    obtain ⟨c, hc⟩ := Option.ne_none_iff_exists'.mp (hs.owner d.key (by
      rw [show st.deliveries.find? d.key = some d from find?_of_mem hd]; simp))
    obtain ⟨hstream, -⟩ := pair_of_find? hc
    exact hno c (mem_of_find? hc) (hstream.trans (beq_iff_eq.mp (Bool.and_eq_true_iff.mp hhit).1))
  have hafter : (st.rangePurged stream upper).minCursor stream = 0 := by
    refine minCursor_eq_zero fun c' hc' hs' => ?_
    simp only [Store.rangePurged, Store.purged, Store.clampCursors, mem_update] at hc'
    obtain ⟨_, ⟨c₀, hc₀, rfl⟩, rfl⟩ := hc'
    refine hno c₀ hc₀ ?_
    rw [← hs']
    split_ifs <;> rfl
  simp only [Store.rangeDone, hholds, hafter, minCursor_eq_zero hno, Store.rangeImpact, List.length_nil,
    Nat.cast_zero, ne_eq,
    not_true_eq_false, decide_false]

end Dry

/-- The preview agrees with the purge on the filtered path; on the range path when nothing is in range or nobody
consumes the stream, and only then. -/
theorem purge_predicted_iff {h : List Visit} {b : Broker} (r : Runs h b) {stream : Bytes} {spec : PurgeSpec}
    {actor : Bytes}
    (hv : validatePurgeSpec spec = .ok ()) :
    PurgePredicted b.store stream spec actor ↔ ¬ spec.Whole ∨
      (∀ m ∈ b.store.messagesOf stream, spec.upper (b.store.headOf stream) < m.seq) ∨
      ∀ c ∈ b.store.consumers, c.stream ≠ stream := by
  unfold PurgePredicted
  rw [purge_eq hv, purge_eq hv]
  by_cases hwhole : spec.subject = [] ∧ spec.keep = 0
  · rw [if_pos hwhole, if_pos hwhole, purgeRange_stops (.inl rfl)]
    by_cases hnil : (b.store.messagesOf stream).filter (fun m => m.seq ≤ spec.upper (b.store.headOf stream)) = []
    · have hall : ∀ m ∈ b.store.messagesOf stream, spec.upper (b.store.headOf stream) < m.seq := fun m hm => by
        simpa using List.filter_eq_nil_iff.mp hnil m hm
      exact iff_of_true ⟨_, _, rfl, purgeRange_stops (.inr hnil), removes_nothing (by simp [Store.rangeImpact, hnil])
        (by simp [Store.rangeImpact, hnil]) rfl⟩ (.inr (.inl hall))
    · obtain ⟨st', hreal, hcar⟩ := purgeRange_carried (b.store.headOf stream) actor hnil
      obtain ⟨m, hm⟩ := List.exists_mem_of_ne_nil _ hnil
      obtain ⟨hm, hle⟩ := List.mem_filter.mp hm
      rw [decide_eq_true_eq] at hle
      constructor
      · rintro ⟨impact, _, hdry, hrun, -⟩
        refine .inr (.inr fun c hc hs => ?_)
        -- the preview says 0 where the purge says where the cursors are
        obtain rfl := congrArg Prod.fst (Except.ok.inj hdry)
        have hsame := congrArg (fun p => PurgeResult.cursorAfter p.1) (Except.ok.inj (hreal.symm.trans hrun))
        have hone := r.positive m (mem_messagesOf.mp hm).1
        exact minCursor_rangePurged (by omega) hc hs hsame
      · rintro (hw | hall | hno)
        · exact absurd hwhole hw
        · have := hall m hm
          omega
        · rw [rangeDone_eq r.sound hno] at hreal hcar
          exact ⟨_, st', rfl, hreal, hcar.removes⟩
  · rw [if_neg hwhole, if_neg hwhole, purgeScan_stops (.inl rfl)]
    refine iff_of_true ?_ (.inl hwhole)
    by_cases hnil : b.store.purgeVictims stream spec.pattern (spec.upper (b.store.headOf stream)) spec.keep = []
    · refine ⟨_, _, rfl, purgeScan_stops (.inr hnil), ?_⟩
      rw [hnil]
      exact removes_nothing rfl rfl (by simp [Store.scanImpact, Store.holdsOn, Table.select])
    · obtain ⟨st', hreal, hcar⟩ := purgeScan_carried (b.store.headOf stream) actor hnil
      exact ⟨_, st', rfl, hreal, hcar.removes⟩

/-- A purge by subject of a stream with a consumer. -/
theorem purge_predicted_by_subject :
    PurgePredicted (playState (aSetup 2)).store aStream { subject := str "a" } [] :=
  (purge_predicted_iff (runs_play (aSetup 2)) (by decide)).mpr (.inl fun hw => absurd hw.1 (by decide))

/-- A purge of everything, while the only message is held, drops one row and moves the cursor to 2; its preview says
neither. -/
theorem purge_not_predicted :
    Runs (play (aSetup 1 ++ [(10, aFetch 1)]))
      (playState (aSetup 1 ++ [(10, aFetch 1)])) ∧
    [true, false].map (fun dryRun => (purge aStream {} dryRun []
      (playState (aSetup 1 ++ [(10, aFetch 1)])).store).toOption.map fun p =>
        (p.1.messages, p.1.pendingDropped, p.1.cursorBefore, p.1.cursorAfter)) =
      [some (1, 0, 2, 0), some (1, 1, 2, 2)] :=
  ⟨runs_play _, by decide +kernel⟩

/-! ## The first sequence number -/

/-- A message of the stream has this number. -/
def Store.Stores (st : Store) (stream : Bytes) (q : ℤ) : Prop := ∃ m ∈ st.messagesOf stream, m.seq = q

/-- `x` is the least number of `S`, or `d` if there is none. -/
def LeastOr (S : Set ℤ) (d x : ℤ) : Prop := IsLeast S x ∨ S = ∅ ∧ x = d

theorem leastOr_min? (l : List ℤ) (d : ℤ) : LeastOr { q | q ∈ l } d ((l.min?).getD d) := by
  cases hmin : l.min? with
  | none =>
    rw [List.min?_eq_none_iff] at hmin
    exact .inr ⟨by simp [hmin], rfl⟩
  | some q => exact .inl (List.min?_eq_some_iff.mp hmin)

section First

variable {st st' : Store}

theorem Carried.headOf (h : Carried st stream hit impact st') (s : Bytes) : st'.headOf s = st.headOf s := by
  rw [Store.headOf, h.seq]
  rfl

theorem Carried.stores (h : Carried st stream hit impact st') {q : ℤ} :
    st'.Stores stream q ↔ st.Stores stream q ∧ hit q = false := by
  have hmem : ∀ m, m ∈ st'.messagesOf stream ↔ m ∈ st.messagesOf stream ∧ hit m.seq = false := fun m => by
    rw [mem_messagesOf, mem_messagesOf, h.messages, mem_delete]
    constructor
    · rintro ⟨⟨hm, hhit⟩, hs⟩
      exact ⟨⟨hm, hs⟩, by simpa [hs] using hhit⟩
    · rintro ⟨⟨hm, hs⟩, hhit⟩
      exact ⟨⟨hm, by simp [hhit]⟩, hs⟩
  simp only [Store.Stores, hmem]
  constructor
  · rintro ⟨m, ⟨hm, hhit⟩, rfl⟩
    exact ⟨⟨m, hm, rfl⟩, hhit⟩
  · rintro ⟨⟨m, hm, rfl⟩, hhit⟩
    exact ⟨m, ⟨hm, hhit⟩, rfl⟩

theorem leastOr_stored {p : MessageRow → Bool} {Q : ℤ → Prop} (hp : ∀ m, p m = true ↔ Q m.seq) (d : ℤ) :
    LeastOr { q | st.Stores stream q ∧ Q q } d
      ((((st.messagesOf stream).filter p).map MessageRow.seq).min?.getD d) := by
  have hmem : ∀ q, q ∈ ((st.messagesOf stream).filter p).map MessageRow.seq ↔ st.Stores stream q ∧ Q q := fun q => by
    simp only [List.mem_map, List.mem_filter, hp, Store.Stores]
    constructor
    · rintro ⟨m, ⟨hm, hq⟩, rfl⟩
      exact ⟨⟨m, hm, rfl⟩, hq⟩
    · rintro ⟨⟨m, hm, rfl⟩, hq⟩
      exact ⟨m, ⟨hm, hq⟩, rfl⟩
  simp only [← hmem]
  exact leastOr_min? _ _

theorem newest_victim {v : MessageRow} {vs : List MessageRow} (h : st.purgeVictims stream pat upper keep = v :: vs) :
    ∀ m ∈ v :: vs, m.seq ≤ v.seq := by
  have : Std.Total fun a b : MessageRow => b.seq ≤ a.seq := ⟨fun a b => le_total b.seq a.seq⟩
  have : IsTrans MessageRow fun a b => b.seq ≤ a.seq := ⟨fun _ _ _ hab hbc => hbc.trans hab⟩
  have hsorted : (v :: vs).Pairwise fun a b : MessageRow => b.seq ≤ a.seq := by
    rw [← h]
    exact (List.pairwise_insertionSort _ _).sublist (List.drop_sublist _ _)
  intro m hm
  rcases List.mem_cons.mp hm with rfl | hm
  · exact le_rfl
  · exact (List.pairwise_cons.mp hsorted).1 m hm

end First

/-- Three messages, the second one on a subject of its own. -/
def mixedSubjects : List (ℤ × Request) :=
  aSetup 1 ++ ["b", "a"].map fun s => (10, .publish aStream { subject := str s, body := [] })

/-- **First number.** A purge of a range reports the first number left, or the head. Any other purge reports the first
one left between the newest number removed and the head, or the one after the newest. -/
theorem purge_first {st st' : Store} {spec : PurgeSpec} {res : PurgeResult} (hv : validatePurgeSpec spec = .ok ())
    (h : purge stream spec false actor st = .ok (res, st')) (hone : 1 ≤ res.messages) :
    (spec.Whole → LeastOr { q | st'.Stores stream q } (st'.headOf stream) res.firstSeqAfter) ∧
    (¬ spec.Whole → ∃ newest, IsGreatest { q | st.Stores stream q ∧ ¬ st'.Stores stream q } newest ∧
      LeastOr { q | st'.Stores stream q ∧ newest < q ∧ q < st'.headOf stream } (newest + 1) res.firstSeqAfter) := by
  rw [purge_eq hv] at h
  unfold PurgeSpec.Whole
  refine ⟨fun hwhole => ?_, fun hwhole => ?_⟩
  · rw [if_pos hwhole] at h
    by_cases hnil : (st.messagesOf stream).filter (fun m => m.seq ≤ spec.upper (st.headOf stream)) = []
    · rw [purgeRange_stops (.inr hnil)] at h
      obtain rfl := congrArg Prod.fst (Except.ok.inj h)
      simp [Store.rangeImpact, hnil] at hone
    · obtain ⟨st₁, hreal, hcar⟩ := purgeRange_carried (st.headOf stream) actor hnil
      obtain ⟨rfl, rfl⟩ := Prod.mk.inj (Except.ok.inj (hreal.symm.trans h))
      simp only [hcar.headOf, hcar.stores, decide_eq_false_iff_not, not_le]
      exact leastOr_stored (p := fun m => m.seq > spec.upper (st.headOf stream))
        (Q := fun q => spec.upper (st.headOf stream) < q) (fun m => by simp) (st.headOf stream)
  · rw [if_neg hwhole] at h
    cases hvs : st.purgeVictims stream spec.pattern (spec.upper (st.headOf stream)) spec.keep with
    | nil =>
      rw [purgeScan_stops (.inr hvs), hvs] at h
      obtain rfl := congrArg Prod.fst (Except.ok.inj h)
      exact absurd hone (by simp [Store.scanImpact])
    | cons v vs =>
      obtain ⟨st₁, hreal, hcar⟩ := purgeScan_carried (st.headOf stream) actor (hvs.trans_ne (List.cons_ne_nil v vs))
      obtain ⟨rfl, rfl⟩ := Prod.mk.inj (Except.ok.inj (hreal.symm.trans h))
      rw [hvs] at hcar ⊢
      have hle : ∀ q, ((v :: vs).map MessageRow.seq).contains q = true → q ≤ v.seq := fun q hq => by
        obtain ⟨m, hm, rfl⟩ := List.mem_map.mp (List.contains_iff_mem.mp hq)
        exact newest_victim hvs m hm
      have hgone : ∀ q, st.Stores stream q ∧ ¬ st₁.Stores stream q ↔
          st.Stores stream q ∧ ((v :: vs).map MessageRow.seq).contains q = true := fun q => by
        rw [hcar.stores]
        exact and_congr_right fun hs => by rw [not_and, Bool.not_eq_false, imp_iff_right hs]
      refine ⟨v.seq, ⟨(hgone _).mpr ⟨⟨v, (mem_purgeVictims (hvs ▸ List.mem_cons_self)).1, rfl⟩, by simp⟩,
        fun q hq => hle q ((hgone q).mp hq).2⟩, ?_⟩
      -- what lies above the newest one removed is still there
      have habove : ∀ q, st₁.Stores stream q ∧ v.seq < q ∧ q < st₁.headOf stream ↔
          st.Stores stream q ∧ v.seq < q ∧ q < st.headOf stream := fun q => by
        rw [hcar.stores, hcar.headOf]
        refine and_congr_left fun hq => and_iff_left ?_
        rw [← Bool.not_eq_true]
        exact fun hhit => absurd (hle q hhit) (by omega)
      simp only [habove]
      exact leastOr_stored (fun m => by simp) (v.seq + 1)

/-- The second of three messages goes; the report names the third one, although the first is left. -/
theorem purge_first_between : ∃ res st',
    purge aStream { subject := str "b" } false [] (playState mixedSubjects).store = .ok (res, st') ∧
      (st'.messagesOf aStream).map MessageRow.seq = [1, 3] ∧ res.firstSeqAfter = 3 ∧
      ∃ newest, IsGreatest { q | (playState mixedSubjects).store.Stores aStream q ∧ ¬ st'.Stores aStream q } newest ∧
        LeastOr { q | st'.Stores aStream q ∧ newest < q ∧ q < st'.headOf aStream } (newest + 1) 3 := by
  have hrun : (purge aStream { subject := str "b" } false [] (playState mixedSubjects).store).toOption.map
      (fun p => (p.1.messages, (p.2.messagesOf aStream).map MessageRow.seq, p.1.firstSeqAfter)) =
          some (1, [1, 3], 3) := by
    decide +kernel
  obtain ⟨⟨res, st'⟩, hok, hres⟩ := ok_of_map hrun
  obtain ⟨hone, hrest⟩ := Prod.mk.inj hres
  obtain ⟨hleft, hthree⟩ := Prod.mk.inj hrest
  have hfirst := (purge_first (by decide) hok hone.ge).2 fun hw => absurd hw.1 (by decide)
  rw [show res.firstSeqAfter = 3 from hthree] at hfirst
  exact ⟨res, st', hok, hleft, hthree, hfirst⟩

/-- The second message goes and the first stays, but the report says 3. -/
theorem purge_first_missed :
    Runs (play (aSetup 1 ++ [(10, .publish aStream { subject := str "b", body := [] })]))
      (playState (aSetup 1 ++ [(10, .publish aStream { subject := str "b", body := [] })])) ∧
    (purge aStream { subject := str "b" } false []
      (playState (aSetup 1 ++ [(10, .publish aStream { subject := str "b", body := [] })])).store).toOption.map
        (fun p => (p.1.messages, p.1.firstSeqAfter, (p.2.messagesOf aStream).map MessageRow.seq)) =
      some (1, 3, [1]) :=
  ⟨runs_play _, by decide +kernel⟩

end Messq

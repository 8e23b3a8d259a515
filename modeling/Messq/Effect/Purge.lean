import Messq.Effect.Fetch

/-! # What a purge does

Both paths delete messages and the delivery rows on them, and raise the generation of each consumer that held one
of those rows (`purge_run`). Nothing is written to the rows such a consumer keeps. -/

namespace Messq

open Lib Table Relation

variable {dryRun : Bool} {actor stream : Bytes} {r : PurgeResult} {spec : PurgeSpec} {st st' : Store} {next upper : ℤ}
  {hit : ℤ → Bool}

/-- The subject filter, when there is one. -/
def PurgeSpec.pattern (spec : PurgeSpec) : Option Subject.Pattern :=
  if spec.subject = [] then none else (Subject.parsePattern spec.subject).toOption

/-- The sequence numbers a purge takes: a whole range, or the matching messages that are not kept. -/
def Store.purges (st : Store) (stream : Bytes) (spec : PurgeSpec) (q : ℤ) : Prop :=
  if spec.subject = [] ∧ spec.keep = 0 then q ≤ spec.upper (st.headOf stream)
  else ∃ m ∈ st.purgeVictims stream spec.pattern (spec.upper (st.headOf stream)) spec.keep, m.seq = q

instance (st : Store) (stream : Bytes) (spec : PurgeSpec) (q : ℤ) : Decidable (st.purges stream spec q) :=
  inferInstanceAs (Decidable (if spec.subject = [] ∧ spec.keep = 0 then q ≤ spec.upper (st.headOf stream)
    else ∃ m ∈ st.purgeVictims stream spec.pattern (spec.upper (st.headOf stream)) spec.keep, m.seq = q))

/-- The consumer holds a delivery row on one of the sequence numbers `hit`. -/
def Store.holds (st : Store) (stream name : Bytes) (hit : ℤ → Prop) : Prop :=
  ∃ q, hit q ∧ st.deliveries.find? (stream, name, q) ≠ none

/-- A purge that removed the messages on `hit`. -/
structure Purged (st : Store) (stream : Bytes) (hit : ℤ → Prop) (st' : Store) : Prop where
  found : ∃ q, hit q ∧ st.messages.find? (stream, q) ≠ none
  elsewhere : ∀ k, k.1 ≠ stream → st'.consumers.find? k = st.consumers.find? k
  absent : ∀ name, st.consumers.find? (stream, name) = none → st'.consumers.find? (stream, name) = none
  row : ∀ name c, st.consumers.find? (stream, name) = some c → ∃ cursor gen,
    st'.consumers.find? (stream, name) = some { c with cursorSeq := cursor, generation := gen } ∧
    c.cursorSeq ≤ cursor ∧ (c.cursorSeq ≤ st.headOf stream → cursor ≤ st.headOf stream) ∧
    (gen = c.generation + 1 ∧ st.holds stream name hit ∨ gen = c.generation ∧ ¬ st.holds stream name hit)
  deliveries : ∀ k d, st'.deliveries.find? k = some d ↔ st.deliveries.find? k = some d ∧ ¬ (k.1 = stream ∧ hit k.2.2)
  messages : ∀ k m, st'.messages.find? k = some m ↔ st.messages.find? k = some m ∧ ¬ (k.1 = stream ∧ hit k.2)
  streams : st'.streams = st.streams
  seq : st'.streamSeq = st.streamSeq
  stats : InStep st st'
  metaTable : st'.metaTable = st.metaTable
  reports : Reports st st'

theorem mem_holdersOn {name : Bytes} : name ∈ st.holdersOn stream hit ↔ st.holds stream name fun q => hit q = true := by
  simp only [Store.holdersOn, Store.holdsOn, Store.holds, mem_sortedSet, List.mem_map, mem_select,
    Bool.and_eq_true, beq_iff_eq]
  constructor
  · rintro ⟨d, ⟨hd, rfl, hq⟩, rfl⟩
    exact ⟨d.seq, hq, by simp [show st.deliveries.find? _ = some d from find?_of_mem hd]⟩
  · rintro ⟨q, hq, hn⟩
    obtain ⟨d, hd⟩ := Option.ne_none_iff_exists'.mp hn
    have hk : d.key = (stream, name, q) := find?_key hd
    simp only [DeliveryRow.key, Prod.mk.injEq] at hk
    obtain ⟨rfl, rfl, rfl⟩ := hk
    exact ⟨d, ⟨mem_of_find? hd, rfl, hq⟩, rfl⟩

/-- A delete described by the rows that stay. -/
theorem find?_delete_iff {κ ρ : Type} [DecidableEq κ] {key : ρ → κ} (t : Table key) {p : ρ → Bool} {P : κ → Prop}
    (hp : ∀ r, p r = true ↔ P (key r)) (k : κ) (r : ρ) :
    (t.delete p).find? k = some r ↔ t.find? k = some r ∧ ¬ P k := by
  rw [find?_delete, Option.filter_eq_some_iff]
  refine and_congr_right fun hr => ?_
  rw [← find?_key hr, ← hp, Bool.not_eq_true', Bool.not_eq_true]

/-- Consumer rows whose cursors were raised, on one stream and not past its head. -/
structure Clamped (st : Store) (stream : Bytes) (cs : Table ConsumerRow.key) : Prop where
  row : ∀ k c, st.consumers.find? k = some c → ∃ cursor, cs.find? k = some { c with cursorSeq := cursor } ∧
    c.cursorSeq ≤ cursor ∧ (c.cursorSeq ≤ st.headOf stream → cursor ≤ st.headOf stream) ∧
    (k.1 ≠ stream → cursor = c.cursorSeq)
  absent : ∀ k, st.consumers.find? k = none → cs.find? k = none

theorem clamped_refl (st : Store) (stream : Bytes) : Clamped st stream st.consumers :=
  ⟨fun _ c hc => ⟨c.cursorSeq, hc, le_rfl, id, fun _ => rfl⟩, fun _ h => h⟩

theorem clamped_clampCursors {cursor : ℤ} (hc : cursor ≤ st.headOf stream) :
    Clamped st stream (st.clampCursors stream cursor).consumers := by
  have hfind : ∀ k, (st.clampCursors stream cursor).consumers.find? k = (st.consumers.find? k).map fun c =>
      if c.stream == stream && c.cursorSeq < cursor then { c with cursorSeq := cursor } else c := by
    intro k
    simp only [Store.clampCursors, find?_update]
  refine ⟨fun k c hk => ?_, fun k hk => by rw [hfind, hk]; rfl⟩
  have hs : c.stream = k.1 := by rw [← show c.key = k from find?_key hk]
  rw [hfind, hk, Option.map_some]
  by_cases hlt : c.stream = stream ∧ c.cursorSeq < cursor
  · refine ⟨cursor, by simp [hlt], hlt.2.le, fun _ => hc, fun hne => absurd (hs.symm.trans hlt.1) hne⟩
  · exact ⟨c.cursorSeq, by rw [if_neg (by simpa using hlt)], le_rfl, id, fun _ => rfl⟩

/-- The rows on the sequence numbers of `victims` are the victims. -/
theorem victims_perm {victims : List MessageRow} (hnd : victims.Nodup) (hof : ∀ m ∈ victims, m ∈ st.messagesOf stream) :
    victims.Perm
      (st.messages.select fun m => m.stream == stream && (victims.map MessageRow.seq).contains m.seq) := by
  refine (List.perm_ext_iff_of_nodup hnd st.messages.nodup_select).mpr fun m => ?_
  simp only [mem_select, Bool.and_eq_true, beq_iff_eq, List.contains_eq_mem, decide_eq_true_eq, List.mem_map]
  constructor
  · intro hm
    obtain ⟨hmem, hs⟩ := mem_messagesOf.mp (hof m hm)
    exact ⟨hmem, hs, m, hm, rfl⟩
  · rintro ⟨hmem, hs, v, hv, hq⟩
    obtain ⟨hvm, hvs⟩ := mem_messagesOf.mp (hof v hv)
    rwa [← eq_of_key hvm hmem (Prod.ext (hvs.trans hs.symm) hq)]

/-- The deletions and generation bumps, over consumer rows that may have been clamped. -/
theorem purged_of {st₂ : Store} {cs : Table ConsumerRow.key} (hcs : Clamped st stream cs)
    (hfound : ∃ q, hit q = true ∧ st.messages.find? (stream, q) ≠ none) {msgs bytes : ℤ}
    (hcount : (msgs, bytes) = -Lib.tally MessageRow.size (st.messages.select fun m => m.stream == stream && hit m.seq))
    {e : Event} {u u' : Unit}
    (h₁ : addStats stream msgs bytes ({ st with consumers := cs }.purged stream hit (st.holdersOn stream hit)) =
      .ok (u, st₂))
    (he : e.allocation = none) (h₂ : commitEvent e st₂ = .ok (u', st')) :
    Purged st stream (fun q => hit q = true) st' := by
  obtain rfl := run_modify.mp h₁
  obtain rfl := commitEvent_run.mp h₂
  have hcons : ∀ k, ({ st with consumers := cs }.purged stream hit (st.holdersOn stream hit)).consumers.find? k =
      (cs.find? k).map fun c => if c.stream == stream && (st.holdersOn stream hit).contains c.name then
        { c with generation := c.generation + 1 } else c := by
    intro k
    simp only [Store.purged, find?_update]
  refine {
    found := hfound
    elsewhere := fun k hk => (hcons k).trans ?_
    absent := fun name hn => (hcons _).trans (by rw [hcs.absent _ hn]; rfl)
    row := fun name c hc => ?_
    deliveries := find?_delete_iff st.deliveries fun d => by simp
    messages := find?_delete_iff st.messages fun m => by simp
    streams := rfl
    seq := rfl
    stats := inStep_deleted (by exact fun _ _ => rfl) (fun m hm => beq_iff_eq.mp (Bool.and_eq_true_iff.mp hm).1) rfl rfl
      fun r => congrArg (r.counts + ·) hcount
    metaTable := rfl
    reports := reports_append he }
  · cases hc : st.consumers.find? k with
    | none => rw [hcs.absent k hc]; rfl
    | some c =>
      obtain ⟨cursor, hk', -, -, he⟩ := hcs.row k c hc
      have hs : c.stream ≠ stream := by
        rw [show c.stream = k.1 by rw [← show c.key = k from find?_key hc]]; exact hk
      rw [hk', he hk]
      simp [hs]
  · obtain ⟨cursor, hk, hle, hhead, -⟩ := hcs.row _ c hc
    have hck : c.key = (stream, name) := find?_key hc
    obtain ⟨rfl, rfl⟩ := Prod.mk.inj hck
    refine ⟨cursor, if c.name ∈ st.holdersOn c.stream hit then c.generation + 1 else c.generation, ?_, hle, hhead, ?_⟩
    · refine (hcons _).trans ?_
      rw [hk]
      by_cases hh : c.name ∈ st.holdersOn c.stream hit <;> simp [hh]
    · rw [← mem_holdersOn]
      by_cases hh : c.name ∈ st.holdersOn c.stream hit
      · exact .inl ⟨if_pos hh, hh⟩
      · exact .inr ⟨if_neg hh, hh⟩

theorem purgePattern_run {o : Option Subject.Pattern} (h : purgePattern spec.subject st = .ok (o, st')) :
    st = st' ∧ o = spec.pattern ∧ (o = none ↔ spec.subject = []) := by
  unfold purgePattern at h
  unfold PurgeSpec.pattern
  rw [run_ite] at h
  split at h
  · rename_i hs
    obtain ⟨rfl, rfl⟩ := run_pure.mp h
    simp [hs]
  · rename_i hs
    simp only [run_bind, check_run, run_pure] at h
    obtain ⟨p, _, ⟨hp, rfl⟩, rfl, rfl⟩ := h
    cases hpat : Subject.parsePattern spec.subject with
    | error e => rw [hpat] at hp; cases hp
    | ok p' =>
      rw [hpat] at hp
      cases hp
      simp [hs, Except.toOption]

/-- Some message of the list is stored on its sequence number. -/
theorem victims_found {ms : List MessageRow} (hit : ℤ → Bool) (hne : ms ≠ [])
    (hms : ∀ m ∈ ms, m ∈ st.messagesOf stream ∧ hit m.seq = true) :
    ∃ q, hit q = true ∧ st.messages.find? (stream, q) ≠ none := by
  obtain ⟨m, hm⟩ := List.exists_mem_of_ne_nil ms hne
  obtain ⟨hmem, hhit⟩ := hms m hm
  obtain ⟨hmem', rfl⟩ := mem_messagesOf.mp hmem
  exact ⟨m.seq, hhit, by simp [show st.messages.find? _ = some m from find?_of_mem hmem']⟩

theorem purgeRange_run (hu : upper + 1 ≤ st.headOf stream)
    (h : purgeRange stream upper next dryRun actor st = .ok (r, st')) :
    st' = st ∨ dryRun = false ∧ Purged st stream (fun q => q ≤ upper) st' := by
  simp only [purgeRange, run_get_bind] at h
  rw [run_ite] at h
  split at h
  · obtain ⟨-, rfl⟩ := run_pure.mp h
    exact .inl rfl
  · rename_i hreal
    rw [not_or] at hreal
    simp only [run_bind, run_set_bind, run_pure] at h
    obtain ⟨_, _, h₁, _, _, h₂, -, rfl⟩ := h
    refine .inr ⟨by simpa using hreal.1, ?_⟩
    have hfound := victims_found (fun q => decide (q ≤ upper)) hreal.2 fun m hm => List.mem_filter.mp hm
    have hsel : (st.messagesOf stream).filter (fun m => decide (m.seq ≤ upper)) =
        st.messages.select fun m => m.stream == stream && decide (m.seq ≤ upper) := by
      rw [Store.messagesOf, Table.select, Table.select, List.filter_filter]
      exact List.filter_congr fun m _ => Bool.and_comm _ _
    simpa only [decide_eq_true_eq] using purged_of (clamped_clampCursors hu) hfound (by rw [hsel]; rfl) h₁ rfl h₂

theorem purgeScan_run {pat : Option Subject.Pattern}
    (h : purgeScan stream pat spec upper next dryRun actor st = .ok (r, st')) :
    st' = st ∨ dryRun = false ∧
      Purged st stream (fun q => ∃ m ∈ st.purgeVictims stream pat upper spec.keep, m.seq = q) st' := by
  simp only [purgeScan, run_get_bind] at h
  rw [run_ite] at h
  split at h
  · obtain ⟨-, rfl⟩ := run_pure.mp h
    exact .inl rfl
  · rename_i hreal
    rw [not_or] at hreal
    simp only [run_bind, run_set_bind, run_pure] at h
    obtain ⟨_, _, h₁, _, _, h₂, -, rfl⟩ := h
    refine .inr ⟨by simpa using hreal.1, ?_⟩
    have hof : ∀ m ∈ st.purgeVictims stream pat upper spec.keep, m ∈ st.messagesOf stream := fun m hm => by
      have := List.mem_of_mem_drop hm
      rw [List.mem_insertionSort] at this
      exact List.mem_of_mem_filter this
    have hfound := victims_found
      (fun q => ((st.purgeVictims stream pat upper spec.keep).map MessageRow.seq).contains q) hreal.2 fun m hm =>
        ⟨hof m hm, by simpa using ⟨m, hm, rfl⟩⟩
    have hnd : (st.purgeVictims stream pat upper spec.keep).Nodup :=
      (((List.perm_insertionSort _ _).nodup_iff.mpr (st.messages.nodup_select.filter _)).sublist
        (List.drop_sublist _ _))
    simpa using purged_of (clamped_refl st stream) hfound
      (by rw [← tally_perm MessageRow.size (victims_perm hnd hof)]; rfl) h₁ rfl h₂

theorem upper_lt (spec : PurgeSpec) (next : ℤ) : spec.upper next + 1 ≤ next := by
  unfold PurgeSpec.upper
  split <;> omega

/-- **Purge.** A dry run and a purge without victims change nothing; any other removes what `purges` says. -/
theorem purge_run (h : purge stream spec dryRun actor st = .ok (r, st')) :
    st' = st ∨ dryRun = false ∧ Purged st stream (st.purges stream spec) st' := by
  simp only [purge, run_bind, run_get] at h
  obtain ⟨pat, _, h₁, _, _, ⟨rfl, rfl⟩, h⟩ := h
  obtain ⟨rfl, rfl, hnone⟩ := purgePattern_run h₁
  simp only [Option.isNone_iff_eq_none, hnone, run_ite] at h
  unfold Store.purges
  split at h
  · rename_i hwhole
    simpa only [if_pos hwhole] using purgeRange_run (upper_lt spec _) h
  · rename_i hscan
    simpa only [if_neg hscan] using purgeScan_run h

end Messq

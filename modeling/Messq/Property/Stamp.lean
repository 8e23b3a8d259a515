import Messq.Run
import Messq.Effect.Journal

/-! # The times of the audit trail

The rows a request appends to the `events` table bear its time (`written_stamped`), a seek's and a purge's apart: those
bear the time 0, and the age pass of the next trim takes them (`seek_event_trimmed`). In a run without them, times grow
with the ids while the clock does not go back, and a trim takes a row that is younger than its age only when the row
ceiling alone takes it (`events_bear_their_time`). -/

namespace Messq

open Lib Table

variable {b : Broker} {r : EventRow} {s : Step} {t : Table EventRow.id} {spec : TrimSpec} {v : Visit} {n : ℕ}

/-! ## What a visit appends -/

/-- The rows a visit added to the audit trail. -/
def Visit.written (v : Visit) : List EventRow :=
  v.post.store.events.rows.filter fun r => (v.pre.store.events.find? r.id).isNone

theorem mem_written : r ∈ Visit.written v ↔ r ∈ v.post.store.events ∧ ∀ r' ∈ v.pre.store.events, r'.id ≠ r.id := by
  rw [Visit.written, List.mem_filter, Option.isNone_iff_eq_none, find?_eq_none]
  rfl

/-- What a visit that is no trim does to the audit trail. -/
theorem exec_journal (hk : s.req.kind ≠ .trimming) : ∃ es,
    (b.exec s).1.store.events = journal b.store.events es ∧ (∀ e ∈ (b.exec s).2.events, e ∈ es) ∧
    ∀ e ∈ es, (s.req.unstamped = false → e.ts = s.env.nowMs) ∧ (s.req.fetches = false → e.name ≠ .msgDeliver) ∧
      (s.req.kind ≠ .delivery → e.name ≠ .msgDead ∧ e.name ≠ .msgTimeout) := by
  rcases exec_cases b s with ⟨reply, st, hcom⟩ | ⟨hst, -, hev, -⟩
  · obtain ⟨es, hl, hp⟩ := applyRequest_logs rfl hk hcom.run
    refine ⟨es, by rw [hcom.post]; exact hl.events, fun e he => ?_, hp⟩
    rw [hcom.out] at he
    obtain ⟨cs, hcs, hsub⟩ := hl.carriers
    have hcs : st.carriers = cs := hcs
    rw [Outcome.events, hcs] at he
    exact hsub e he
  · refine ⟨[], by rw [hst]; rfl, fun e he => ?_, fun _ h => absurd h List.not_mem_nil⟩
    rw [hev] at he
    exact he

/-- The rows written are the events, in order, after all that were there. -/
theorem written_of_journal {es : List Event} (h : v.post.store.events = journal v.pre.store.events es) :
    v.post.store.events.rows = v.pre.store.events.rows ++ Visit.written v ∧
      (Visit.written v).map EventRow.event = es ∧ ∀ r ∈ v.pre.store.events, ∀ r' ∈ Visit.written v, r.id < r'.id := by
  obtain ⟨new, hrows, hmap, hlt⟩ := rows_journal v.pre.store.events es
  have hnew : Visit.written v = new := by
    rw [Visit.written, h, hrows, List.filter_append, List.filter_eq_nil_iff.mpr, List.filter_eq_self.mpr,
      List.nil_append]
    · intro r hr
      rw [Option.isNone_iff_eq_none, find?_eq_none]
      exact fun r' hr' => (hlt r' hr' r hr).ne
    · intro r hr
      rw [find?_of_mem (mem_iff.mpr hr)]
      exact nofun
  rw [hnew]
  exact ⟨by rw [h]; exact hrows, hmap, hlt⟩

/-! ## The trim -/

theorem mem_oldestEvents {p : EventRow → Bool} (hr : r ∈ t) (h : r.id ∈ oldestEvents t p n) : p r = true := by
  have h := List.mem_of_mem_take h
  rw [List.mem_insertionSort, List.mem_map] at h
  obtain ⟨r', hr', hid⟩ := h
  obtain ⟨hmem, hp⟩ := mem_select.mp hr'
  rwa [← eq_of_key hmem hr hid]

/-- The first `n` of the ids have all the others above them. -/
theorem newer_of_oldest (h : r.id ∈ oldestEvents t (fun _ => true) n) :
    t.rows.length - n ≤ (t.select fun r' => decide (r.id < r'.id)).length := by
  unfold oldestEvents at h
  generalize hl : ((t.select fun _ => true).map EventRow.id).insertionSort (· ≤ ·) = l at h
  have hperm : l.Perm (t.rows.map EventRow.id) := by
    rw [← hl]
    refine (List.perm_insertionSort _ _).trans ?_
    rw [Table.select, List.filter_eq_self.mpr fun _ _ => rfl]
  have hsorted : l.Pairwise (· ≤ ·) := hl ▸ List.pairwise_insertionSort _ _
  have hnodup : l.Nodup := hperm.nodup_iff.mpr t.nodup
  have hlt : ∀ y ∈ l.drop n, r.id < y := fun y hy => by
    have hsplit := hsorted.and hnodup
    rw [← List.take_append_drop n l, List.pairwise_append] at hsplit
    obtain ⟨hle, hne⟩ := hsplit.2.2 r.id h y hy
    exact lt_of_le_of_ne hle hne
  calc t.rows.length - n = (l.drop n).length := by rw [List.length_drop, hperm.length_eq, List.length_map]
    _ = ((l.drop n).filter fun y => decide (r.id < y)).length := by
      rw [List.filter_eq_self.mpr fun y hy => decide_eq_true (hlt y hy)]
    _ ≤ (l.filter fun y => decide (r.id < y)).length := ((List.drop_sublist n l).filter _).length_le
    _ = (t.select fun r' => decide (r.id < r'.id)).length := by
      rw [(hperm.filter _).length_eq, List.filter_map, List.length_map]
      rfl

/-- The row ceiling alone takes the row: that many newer ones are there. -/
def OverCeiling (spec : TrimSpec) (t : Table EventRow.id) (r : EventRow) : Prop :=
  0 < spec.maxRows ∧ spec.maxRows ≤ ((t.select fun r' => decide (r.id < r'.id)).length : ℤ)

/-- The row is older than the trim allows. -/
def Aged (spec : TrimSpec) (nowMs : ℤ) (r : EventRow) : Prop := 0 < spec.maxAgeMs ∧ r.event.ts < nowMs - spec.maxAgeMs

theorem OverCeiling.mono {t' : Table EventRow.id} (h : OverCeiling spec t' r) (hsub : t'.rows.Sublist t.rows) :
    OverCeiling spec t r :=
  ⟨h.1, h.2.trans (by exact_mod_cast (hsub.filter _).length_le)⟩

/-- One round, and then the loop: it keeps or takes rows, and takes only aged ones and those above the ceiling. -/
theorem trimRound_spec (spec : TrimSpec) (nowMs : ℤ) (budget : ℕ) (t : Table EventRow.id) :
    (trimRound spec nowMs budget t).1.rows.Sublist t.rows ∧
      ∀ r ∈ t, r ∉ (trimRound spec nowMs budget t).1 → Aged spec nowMs r ∨ OverCeiling spec t r := by
  unfold trimRound
  dsimp only
  generalize haged : (if spec.maxAgeMs > 0 then
    oldestEvents t (fun r => decide (r.event.ts < nowMs - spec.maxAgeMs)) budget else []) = aged
  generalize ht₁ : (t.delete fun r => aged.contains r.id) = t₁
  have hsub₁ : t₁.rows.Sublist t.rows := ht₁ ▸ List.filter_sublist
  refine ⟨List.filter_sublist.trans hsub₁, fun r hr hgone => ?_⟩
  by_cases hold : r.id ∈ aged
  · left
    rw [← haged] at hold
    split at hold
    · rename_i hpos
      exact ⟨hpos, of_decide_eq_true (mem_oldestEvents hr hold)⟩
    · cases hold
  · right
    have hr₁ : r ∈ t₁ := ht₁ ▸ mem_delete.mpr ⟨hr, by simpa using hold⟩
    simp only [mem_delete, hr₁, true_and, Bool.not_eq_false, List.contains_eq_mem, decide_eq_true_eq] at hgone
    split at hgone
    · rename_i hpos
      have hnewer := newer_of_oldest hgone
      refine OverCeiling.mono ⟨hpos, ?_⟩ hsub₁
      have hn := Nat.min_le_left ((t₁.rows.length : ℤ) - spec.maxRows).toNat (budget - aged.length)
      by_cases hex : 0 ≤ (t₁.rows.length : ℤ) - spec.maxRows
      · omega
      · -- no excess, so nothing was taken
        have hz : min ((t₁.rows.length : ℤ) - spec.maxRows).toNat (budget - aged.length) = 0 := by omega
        rw [hz, oldestEvents, List.take_zero] at hgone
        cases hgone
    · cases hgone

theorem trimLoop_spec (spec : TrimSpec) (nowMs : ℤ) (fuel budget : ℕ) (t : Table EventRow.id) :
    (trimLoop spec nowMs fuel budget t).1.rows.Sublist t.rows ∧
      ∀ r ∈ t, r ∉ (trimLoop spec nowMs fuel budget t).1 → Aged spec nowMs r ∨ OverCeiling spec t r := by
  induction fuel generalizing budget t with
  | zero => exact ⟨List.Sublist.refl _, fun r hr hgone => absurd hr hgone⟩
  | succ fuel ih =>
    obtain ⟨hsub, hround⟩ := trimRound_spec spec nowMs budget t
    unfold trimLoop
    dsimp only
    split
    · exact ⟨hsub, hround⟩
    · obtain ⟨hsub', hloop⟩ := ih (budget - (trimRound spec nowMs budget t).2) (trimRound spec nowMs budget t).1
      refine ⟨hsub'.trans hsub, fun r hr hgone => ?_⟩
      by_cases hr' : r ∈ (trimRound spec nowMs budget t).1
      · exact (hloop r hr' hgone).imp_right fun h => h.mono hsub
      · exact hround r hr hr'

/-- What a visit that trims does to the audit trail. -/
theorem exec_trim {batch : ℤ} (hreq : s.req = .trimEvents spec batch) :
    (b.exec s).1.store.events.rows.Sublist b.store.events.rows ∧
      ∀ r ∈ b.store.events, r ∉ (b.exec s).1.store.events → Aged spec s.env.nowMs r ∨
      OverCeiling spec b.store.events r := by
  rcases exec_cases b s with ⟨reply, st, hcom⟩ | ⟨hst, -⟩
  · have hrun := hcom.run
    rw [hreq] at hrun
    obtain ⟨res, hrun, -⟩ := run_map.mp hrun
    simp only [trimEvents, run_get_bind, run_set_bind, run_pure] at hrun
    obtain ⟨-, rfl⟩ := hrun
    rw [hcom.post]
    exact trimLoop_spec spec s.env.nowMs _ _ _
  · rw [hst]
    exact ⟨List.Sublist.refl _, fun r hr hgone => absurd hr hgone⟩

theorem trims_of_kind {req : Request} (h : req.kind = .trimming) : ∃ spec batch, req = .trimEvents spec batch := by
  cases req with
  | trimEvents spec batch => exact ⟨spec, batch, rfl⟩
  | _ => cases h

/-- A trim writes nothing. -/
theorem written_trim (hk : s.req.kind = .trimming) : Visit.written (visit Broker.exec b s) = [] := by
  obtain ⟨spec, batch, hreq⟩ := trims_of_kind hk
  refine List.eq_nil_iff_forall_not_mem.mpr fun r hr => ?_
  obtain ⟨hmem, hne⟩ := mem_written.mp hr
  exact absurd rfl (hne r ((exec_trim hreq).1.subset hmem))

/-! ## Runs -/

/-- No event of a seek or a purge is written. -/
def WritesStamped (v : Visit) : Prop := v.act.req.unstamped = true → Visit.written v = []

instance (v : Visit) : Decidable (WritesStamped v) := by unfold WritesStamped; infer_instance

/-- **Step.** The rows a visit writes bear its time and come after all that are there. -/
theorem written_stamped :
    (WritesStamped (visit Broker.exec b s) → ∀ r ∈ Visit.written (visit Broker.exec b s), r.event.ts = s.env.nowMs) ∧
    (∀ r ∈ b.store.events, ∀ r' ∈ Visit.written (visit Broker.exec b s), r.id < r'.id) ∧
    ∀ r ∈ (b.exec s).1.store.events, r ∈ b.store.events ∨ r ∈ Visit.written (visit Broker.exec b s) := by
  by_cases hk : s.req.kind = .trimming
  · obtain ⟨spec, batch, hreq⟩ := trims_of_kind hk
    have hsub := (exec_trim (b := b) hreq).1
    have hnone : ∀ r, r ∉ Visit.written (visit Broker.exec b s) := fun r hr => by
      obtain ⟨hmem, hne⟩ := mem_written.mp hr
      exact hne r (hsub.subset hmem) rfl
    exact ⟨fun _ r hr => absurd hr (hnone r), fun _ _ r' hr' => absurd hr' (hnone r'),
      fun r hr => .inl (hsub.subset hr)⟩
  · obtain ⟨es, hes, -, hp⟩ := exec_journal (b := b) hk
    obtain ⟨hrows, hmap, hlt⟩ := written_of_journal (v := visit Broker.exec b s) hes
    refine ⟨fun hu r hr => (hp _ (hmap ▸ List.mem_map.mpr ⟨r, hr, rfl⟩)).1 ?_, hlt, fun r hr => ?_⟩
    · refine Bool.eq_false_of_not_eq_true fun hreq => ?_
      rw [hu hreq] at hr
      cases hr
    · exact List.mem_append.mp (hrows ▸ hr)

/-- A row that one of the visits wrote. -/
def WrittenIn (h : List Visit) (r : EventRow) : Prop := ∃ u ∈ h, r ∈ Visit.written u

/-- While the clock does not go back, times grow with the ids. -/
theorem times_grow {b₀ : Broker} {h : List Visit} (r : History Broker.exec b₀ h b)
    (hq : ∀ v ∈ h, WritesStamped v) (hclock : h.Pairwise fun u v => u.act.env.nowMs ≤ v.act.env.nowMs) :
    ∀ r ∈ b.store.events, ∀ r' ∈ b.store.events, WrittenIn h r → WrittenIn h r' → r.id < r'.id →
      r.event.ts ≤ r'.event.ts := by
  have hup : Upheld (fun past v => WritesStamped v ∧ ∀ u ∈ past, u.act.env.nowMs ≤ v.act.env.nowMs) h := by
    rintro h₁ v h₂ rfl
    exact ⟨hq v (by simp), fun u hu => (List.pairwise_append.mp hclock).2.2 u hu v List.mem_cons_self⟩
  refine (History.invariant (I := fun h b => (∀ r ∈ b.store.events, ∀ r' ∈ b.store.events,
    WrittenIn h r → WrittenIn h r' → r.id < r'.id → r.event.ts ≤ r'.event.ts) ∧
    ∀ u ∈ h, ∀ r ∈ Visit.written u, r.event.ts = u.act.env.nowMs) r hup
    ⟨fun _ _ _ _ h => (by obtain ⟨_, h, -⟩ := h; cases h), fun _ h => (by cases h)⟩ ?_).1
  rintro h b s ⟨hgrow, hstamp⟩ ⟨hu, hle⟩
  obtain ⟨hnew, hlt, hsplit⟩ := written_stamped (b := b) (s := s)
  have hstamp' : ∀ u ∈ h ++ [visit Broker.exec b s], ∀ r ∈ Visit.written u, r.event.ts = u.act.env.nowMs := by
    intro u hu' r hr
    rcases List.mem_append.mp hu' with hu' | hu'
    · exact hstamp u hu' r hr
    · obtain rfl := List.mem_singleton.mp hu'
      exact hnew hu r hr
  -- a row that was there already was written earlier
  have hold : ∀ r ∈ b.store.events, WrittenIn (h ++ [visit Broker.exec b s]) r → WrittenIn h r := by
    rintro r hr ⟨u, hu', hw⟩
    rcases List.mem_append.mp hu' with hu' | hu'
    · exact ⟨u, hu', hw⟩
    · obtain rfl := List.mem_singleton.mp hu'
      exact absurd rfl ((mem_written.mp hw).2 r hr)
  refine ⟨fun r hr r' hr' hw hw' hid => ?_, hstamp'⟩
  rcases hsplit r hr with hr | hr <;> rcases hsplit r' hr' with hr' | hr'
  · exact hgrow r hr r' hr' (hold r hr hw) (hold r' hr' hw') hid
  · obtain ⟨u, hu', hw⟩ := hold r hr hw
    rw [hstamp u hu' r hw, hnew hu r' hr']
    exact hle u hu'
  · have := hlt r' hr' r hr
    omega
  · rw [hnew hu r hr, hnew hu r' hr']

/-- **Times.** When no seek and no purge writes its event: each row written bears the time of its request; over a
stretch of the run in which the clock does not go back, times grow with the ids; and a trim by age takes a row that was
written less than that age ago only when the row ceiling alone takes it. -/
theorem events_bear_their_time {h : List Visit} {b : Broker} (r : Runs h b) (hq : ∀ v ∈ h, WritesStamped v) :
    (∀ v ∈ h, ∀ r ∈ Visit.written v, r.event.ts = v.act.env.nowMs) ∧
    (∀ h₁ h₂, h = h₁ ++ h₂ → h₂.Pairwise (fun u v => u.act.env.nowMs ≤ v.act.env.nowMs) →
      ∀ r ∈ b.store.events, ∀ r' ∈ b.store.events, WrittenIn h₂ r → WrittenIn h₂ r' → r.id < r'.id →
        r.event.ts ≤ r'.event.ts) ∧
    ∀ h₁ v h₂ spec batch, h = h₁ ++ v :: h₂ → v.act.req = .trimEvents spec batch → 0 < spec.maxAgeMs →
      ∀ r ∈ v.pre.store.events, r ∉ v.post.store.events →
      ∀ u ∈ h₁, r ∈ Visit.written u → v.act.env.nowMs - u.act.env.nowMs < spec.maxAgeMs →
        OverCeiling spec v.pre.store.events r := by
  have hstamp : ∀ v ∈ h, ∀ r ∈ Visit.written v, r.event.ts = v.act.env.nowMs := fun v hv row hrow => by
    obtain ⟨h₁, h₂, -, -, hvis, -⟩ := r.at_mem hv
    have hv := hq v hv
    rw [hvis] at hrow hv
    exact written_stamped.1 hv row hrow
  refine ⟨hstamp, ?_, ?_⟩
  · rintro h₁ h₂ rfl hclock
    obtain ⟨b₁, -, r₂⟩ := History.split r
    exact times_grow r₂ (fun v hv => hq v (List.mem_append_right _ hv)) hclock
  · rintro h₁ v h₂ spec batch rfl hreq hage row hrow hgone u hu hw hyoung
    obtain ⟨-, hvis, -⟩ := r.at_visit
    rw [hvis] at hgone
    rcases (exec_trim hreq).2 row hrow hgone with ⟨-, hold⟩ | hover
    · rw [hstamp u (by simp [hu]) row hw] at hold
      omega
    · exact hover

/-! ## A seek whose event is trimmed -/

/-- A seek at 10, a purge at 11, and at 12 a trim of what is older than five milliseconds. -/
def trimmedLife : List (ℤ × Request) :=
  aSetup 1 ++ [(10, .seek aStream aConsumer .new false []), (11, .purge aStream {} false []),
    (12, .trimEvents { maxAgeMs := 5, maxRows := 0 } 0)]

/-- Their events bear the time 0, and the trim takes them. -/
theorem seek_event_trimmed : Runs (play trimmedLife) (playState trimmedLife) ∧
    ((play trimmedLife).drop 3).map (fun v => (v.act.env.nowMs, (Visit.written v).map fun r =>
      (r.event.name, r.event.ts))) =
      [(10, [(.consumerSeek, 0)]), (11, [(.streamPurge, 0)]), (12, [])] ∧
    (playState trimmedLife).store.events.rows.map EventRow.id = [] :=
  ⟨runs_play _, by decide +kernel⟩

/-- Messages are published, claimed and acknowledged; the trail is trimmed to one row. -/
def ceilingLife : List (ℤ × Request) :=
  aSetup 1 ++ [(10, aFetch 1), (11, .settle [anItem .ack 1 1 1]),
    (12, .trimEvents { maxAgeMs := 5, maxRows := 1 } 0)]

theorem events_bear_their_time_ceilingLife :
    (playState ceilingLife).store.events.rows.map (fun r => (r.event.name, r.event.ts)) = [(.msgAck, 11)] ∧
    ∀ v ∈ play ceilingLife, ∀ r ∈ Visit.written v, r.event.ts = v.act.env.nowMs :=
  ⟨by decide +kernel, (events_bear_their_time (runs_play ceilingLife) (by decide +kernel)).1⟩

end Messq

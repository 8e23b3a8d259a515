import Messq.Lib.Rank
import Messq.Property.Stamp

/-! # Trimming the audit trail

`TrimEventsCmd` deletes rows that are too old and, oldest first, rows above a ceiling, both out of one budget. A row
stays if it is within the age bound and among the newest that are (`TrimSpec.keeps`). No round takes such a row and each
round leaves the others what they were (`target_trimRound`), so whatever the budget, slices repeated until nothing is
owed end at the same table (`trim_exact`). -/

namespace Messq

open Lib Table

variable {p : EventRow → Bool} {t' : Table EventRow.id} {r : EventRow} {nowMs : ℤ}

instance (spec : TrimSpec) (nowMs : ℤ) (r : EventRow) : Decidable (Aged spec nowMs r) :=
  inferInstanceAs (Decidable (_ ∧ _))

/-- The age bound asks for the row. -/
def TrimSpec.expires (spec : TrimSpec) (nowMs : ℤ) (r : EventRow) : Bool := decide (Aged spec nowMs r)

theorem TrimSpec.expires_iff {spec : TrimSpec} :
    spec.expires nowMs r = true ↔ 0 < spec.maxAgeMs ∧ r.event.ts < nowMs - spec.maxAgeMs := decide_eq_true_iff

/-- How many rows within the age bound are newer. -/
def TrimSpec.newer (spec : TrimSpec) (nowMs : ℤ) (t : Table EventRow.id) (r : EventRow) : ℕ :=
  (t.select fun k => !spec.expires nowMs k && decide (r.id < k.id)).length

/-- The row is within the age bound, and among the newest of these. -/
def TrimSpec.keeps (spec : TrimSpec) (nowMs : ℤ) (t : Table EventRow.id) (r : EventRow) : Bool :=
  !spec.expires nowMs r && (spec.maxRows ≤ 0 || (spec.newer nowMs t r : ℤ) < spec.maxRows)

/-- What trimming is to leave of the table. -/
def TrimSpec.target (spec : TrimSpec) (nowMs : ℤ) (t : Table EventRow.id) : Table EventRow.id :=
  t.delete fun r => !spec.keeps nowMs t r

/-- A bound is exceeded. -/
def TrimSpec.Exceeded (spec : TrimSpec) (nowMs : ℤ) (t : Table EventRow.id) : Prop :=
  (∃ r ∈ t, spec.expires nowMs r = true) ∨ (0 < spec.maxRows ∧ spec.maxRows < t.rows.length)

section Trim

variable {spec : TrimSpec} {t : Table EventRow.id} {n budget : ℕ}

/-! ## The oldest rows -/

theorem nodup_ids (t : Table EventRow.id) (p : EventRow → Bool) : ((t.select p).map EventRow.id).Nodup :=
  t.nodup.sublist (List.filter_sublist.map _)

theorem mem_ids (hr : r ∈ t) : r.id ∈ (t.select p).map EventRow.id ↔ p r = true := by
  constructor
  · intro h
    obtain ⟨k, hk, he⟩ := List.mem_map.mp h
    obtain ⟨hkt, hp⟩ := mem_select.mp hk
    rwa [← eq_of_key hkt hr he]
  · exact fun hp => List.mem_map_of_mem (mem_select.mpr ⟨hr, hp⟩)

theorem mem_oldest_iff (hr : r ∈ t) :
    r.id ∈ oldestEvents t p n ↔ p r = true ∧ rank ((t.select p).map EventRow.id) r.id < n := by
  rw [oldestEvents, mem_take_orderBy (nodup_ids t p), mem_ids hr]

theorem length_oldestEvents (p : EventRow → Bool) : (oldestEvents t p n).length = min n (t.select p).length := by
  rw [oldestEvents, List.length_take, List.length_insertionSort, List.length_map]

/-- A statement that deletes rows by their ids affects as many. -/
theorem length_delete_oldest (t : Table EventRow.id) (p : EventRow → Bool) (n : ℕ) :
    (t.delete fun r => (oldestEvents t p n).contains r.id).rows.length +
    (oldestEvents t p n).length = t.rows.length := by
  have hnodup : (oldestEvents t p n).Nodup :=
    ((List.perm_insertionSort _ _).nodup_iff.mpr (nodup_ids t p)).sublist (List.take_sublist _ _)
  have hhit : ((t.rows.filter fun r => (oldestEvents t p n).contains r.id).map EventRow.id).Perm
      (oldestEvents t p n) := by
    refine (List.perm_ext_iff_of_nodup (nodup_ids t _) hnodup).mpr fun i => ?_
    constructor
    · intro hi
      obtain ⟨r, hr, rfl⟩ := List.mem_map.mp hi
      exact List.contains_iff_mem.mp (List.mem_filter.mp hr).2
    · intro hi
      have hsorted := List.mem_of_mem_take hi
      obtain ⟨r, hr, rfl⟩ := List.mem_map.mp ((List.mem_insertionSort _).mp hsorted)
      exact List.mem_map_of_mem (List.mem_filter.mpr ⟨(mem_select.mp hr).1, List.contains_iff_mem.mpr hi⟩)
  have hlen := hhit.length_eq
  rw [List.length_map] at hlen
  rw [← hlen, Table.delete, add_comm, ← List.length_eq_length_filter_add]

/-! ## A round -/

/-- How many rows the ceiling owes, within a budget. -/
def TrimSpec.surplus (spec : TrimSpec) (t : Table EventRow.id) (budget : ℕ) : ℕ :=
  if spec.maxRows > 0 then min ((t.rows.length : ℤ) - spec.maxRows).toNat budget else 0

theorem TrimSpec.surplus_le (spec : TrimSpec) (t : Table EventRow.id) (budget : ℕ) :
    spec.surplus t budget ≤ budget := by
  rw [TrimSpec.surplus]
  split
  · exact Nat.min_le_right _ _
  · exact Nat.zero_le _

/-- The table after the age pass. -/
def TrimSpec.aged (spec : TrimSpec) (nowMs : ℤ) (budget : ℕ) (t : Table EventRow.id) : Table EventRow.id :=
  t.delete fun r => (oldestEvents t (spec.expires nowMs) budget).contains r.id

theorem trimRound_eq (spec : TrimSpec) (nowMs : ℤ) (budget : ℕ) (t : Table EventRow.id) :
    trimRound spec nowMs budget t =
      let aged := oldestEvents t (spec.expires nowMs) budget
      let t₁ := spec.aged nowMs budget t
      let surplus := oldestEvents t₁ (fun _ => true) (spec.surplus t₁ (budget - aged.length))
      (t₁.delete fun r => surplus.contains r.id, aged.length + surplus.length) := by
  have haged : (if spec.maxAgeMs > 0 then oldestEvents t (fun r => r.event.ts < nowMs - spec.maxAgeMs) budget else []) =
      oldestEvents t (spec.expires nowMs) budget := by
    split
    · rename_i hage
      congr 1
      funext r
      simp [TrimSpec.expires, Aged, hage]
    · rename_i hage
      have hnone : t.select (spec.expires nowMs) = [] :=
        List.filter_eq_nil_iff.mpr fun r _ => by
          simp [TrimSpec.expires, Aged, hage]
      simp [oldestEvents, hnone]
  have hsurplus : ∀ (t₁ : Table EventRow.id) (b : ℕ), (if spec.maxRows > 0 then
      oldestEvents t₁ (fun _ => true) (min ((t₁.rows.length : ℤ) - spec.maxRows).toNat b) else []) =
      oldestEvents t₁ (fun _ => true) (spec.surplus t₁ b) := by
    intro t₁ b
    rw [TrimSpec.surplus]
    split
    · rfl
    · rw [oldestEvents, List.take_zero]
  rw [trimRound, haged]
  simp only [hsurplus]
  rfl

/-- A round spends what it deletes. -/
theorem trimRound_count (spec : TrimSpec) (nowMs : ℤ) (budget : ℕ) (t : Table EventRow.id) :
    (trimRound spec nowMs budget t).2 ≤ budget ∧
    (trimRound spec nowMs budget t).1.rows.length + (trimRound spec nowMs budget t).2 = t.rows.length := by
  rw [trimRound_eq]
  dsimp only
  have hage : (spec.aged nowMs budget t).rows.length + _ = t.rows.length :=
    length_delete_oldest t (spec.expires nowMs) budget
  have hold := length_oldestEvents (t := t) (n := budget) (spec.expires nowMs)
  generalize spec.aged nowMs budget t = t₁ at hage ⊢
  have hcap := length_delete_oldest t₁ (fun _ => true)
    (spec.surplus t₁ (budget - (oldestEvents t (spec.expires nowMs) budget).length))
  have hover := length_oldestEvents (t := t₁)
    (n := spec.surplus t₁ (budget - (oldestEvents t (spec.expires nowMs) budget).length)) fun _ => true
  have hsurplus := spec.surplus_le t₁ (budget - (oldestEvents t (spec.expires nowMs) budget).length)
  omega

/-- Deleting rows that need not stay, from the old end of those within the age bound, leaves the target. -/
theorem target_delete {gone : EventRow → Bool} (hgone : ∀ r ∈ t, gone r = true → spec.keeps nowMs t r = false)
    (hold : ∀ r ∈ t, ∀ k ∈ t, gone r = false → gone k = true → spec.expires nowMs k = false → k.id < r.id) :
    spec.target nowMs (t.delete gone) = spec.target nowMs t := by
  refine eq_of_rows ?_
  change ((t.rows.filter fun r => !gone r).filter fun r => !!spec.keeps nowMs (t.delete gone) r) =
    t.rows.filter fun r => !!spec.keeps nowMs t r
  rw [List.filter_filter]
  refine List.filter_congr fun r hr => ?_
  cases hg : gone r with
  | true => simp [hgone r hr hg]
  | false =>
    have hnewer : spec.newer nowMs (t.delete gone) r = spec.newer nowMs t r := by
      rw [TrimSpec.newer, TrimSpec.newer, Table.select, Table.select, Table.delete, List.filter_filter]
      congr 1
      refine List.filter_congr fun k hk => ?_
      cases hgk : gone k with
      | false => simp
      | true =>
        cases hek : spec.expires nowMs k with
        | true => simp
        | false => simpa using (hold r hr k hk hg hgk hek).le
    rw [TrimSpec.keeps, TrimSpec.keeps, hnewer, Bool.not_false, Bool.and_true]

/-- In a table within the age bound the row is one of its older rows, itself, and its newer ones. -/
theorem rank_add_newer (hfresh : ∀ k ∈ t, spec.expires nowMs k = false) (hr : r ∈ t) :
    rank ((t.select fun _ => true).map EventRow.id) r.id + 1 + spec.newer nowMs t r = t.rows.length := by
  have hall : t.select (fun _ => true) = t.rows := List.filter_eq_self.mpr fun _ _ => rfl
  have hnewer : spec.newer nowMs t r = (t.rows.map EventRow.id).countP (r.id < ·) := by
    rw [TrimSpec.newer, Table.select, List.countP_map, List.countP_eq_length_filter]
    congr 1
    refine List.filter_congr fun k hk => ?_
    simp [hfresh k hk]
  have hone : (t.rows.map EventRow.id).count r.id = 1 := List.count_eq_one_of_mem t.nodup (List.mem_map_of_mem hr)
  rw [hall, hnewer, ← hone, rank_add_count, List.length_map]

/-- **Step.** A round leaves the target what it was. -/
theorem target_trimRound (spec : TrimSpec) (nowMs : ℤ) (budget : ℕ) (t : Table EventRow.id) :
    spec.target nowMs (trimRound spec nowMs budget t).1 = spec.target nowMs t := by
  rw [trimRound_eq]
  dsimp only
  -- the age pass takes what need not stay, and nothing within the age bound
  have haged : ∀ r ∈ t, (oldestEvents t (spec.expires nowMs) budget).contains r.id = true →
      spec.expires nowMs r = true :=
    fun r hr h => mem_oldestEvents hr (List.contains_iff_mem.mp h)
  have hfirst : spec.target nowMs (spec.aged nowMs budget t) = spec.target nowMs t := by
    refine target_delete (fun r hr h => ?_) fun r _ k hk _ h hfresh => ?_
    · rw [TrimSpec.keeps, haged r hr h]
      rfl
    · rw [haged k hk h] at hfresh
      cases hfresh
  rw [← hfirst]
  -- if the ceiling has a budget, the age pass took all it could
  set b := budget - (oldestEvents t (spec.expires nowMs) budget).length with hb
  have hfresh : 0 < b → ∀ r ∈ spec.aged nowMs budget t, spec.expires nowMs r = false := by
    intro hpos r hr
    obtain ⟨hr, hout⟩ := mem_delete.mp hr
    rw [Bool.eq_false_iff]
    intro he
    have hrank := rank_lt_length ((mem_ids (p := spec.expires nowMs) hr).mpr he)
    have hlen := length_oldestEvents (t := t) (n := budget) (spec.expires nowMs)
    rw [List.length_map] at hrank
    have hin := (mem_oldest_iff (n := budget) hr).mpr ⟨he, by omega⟩
    rw [List.contains_iff_mem.mpr hin] at hout
    cases hout
  generalize spec.aged nowMs budget t = t₁ at hfresh ⊢
  refine target_delete (fun r hr h => ?_) fun r hr k hk h h' _ => ?_
  · rw [List.contains_iff_mem, mem_oldest_iff hr, TrimSpec.surplus] at h
    split at h
    · rename_i hcap
      have hsplit := rank_add_newer (hfresh (by omega)) hr
      have hmany : ¬ (spec.newer nowMs t₁ r : ℤ) < spec.maxRows := by omega
      simp [TrimSpec.keeps, hmany, hcap]
    · exact absurd h.2 (Nat.not_lt_zero _)
  · rw [List.contains_iff_mem, mem_oldest_iff hk] at h'
    rw [Bool.eq_false_iff, ne_eq, List.contains_iff_mem, mem_oldest_iff hr] at h
    simp only [true_and, not_lt] at h h'
    by_contra hle
    exact absurd (rank_mono _ (not_lt.mp hle)) (not_le.mpr (h'.trans_le h))

theorem target_eq_self (h : ¬ spec.Exceeded nowMs t) : spec.target nowMs t = t := by
  obtain ⟨hage, hcap⟩ := not_or.mp h
  have hfresh : ∀ r ∈ t, spec.expires nowMs r = false := fun r hr => Bool.eq_false_iff.mpr fun he => hage ⟨r, hr, he⟩
  refine eq_of_rows (List.filter_eq_self.mpr fun r hr => ?_)
  have hsplit := rank_add_newer hfresh hr
  have hfew : spec.maxRows ≤ 0 ∨ (spec.newer nowMs t r : ℤ) < spec.maxRows := by
    by_cases hpos : 0 < spec.maxRows
    · have := not_and.mp hcap hpos
      omega
    · exact .inl (not_lt.mp hpos)
  simpa [TrimSpec.keeps, hfresh r hr] using hfew

theorem TrimSpec.Exceeded.mono (h : spec.Exceeded nowMs t') (hsub : t'.rows.Sublist t.rows) :
    spec.Exceeded nowMs t := by
  rcases h with ⟨r, hr, he⟩ | ⟨hpos, hmany⟩
  · exact .inl ⟨r, hsub.subset hr, he⟩
  · have := hsub.length_le
    exact .inr ⟨hpos, by omega⟩

/-- A round with a budget finds what is owed. -/
theorem trimRound_progress (hb : 1 ≤ budget) (h : spec.Exceeded nowMs t) : (trimRound spec nowMs budget t).2 ≠ 0 := by
  rw [trimRound_eq]
  dsimp only
  intro hnone
  obtain ⟨hage, hcap⟩ := Nat.add_eq_zero_iff.mp hnone
  have hlen : (spec.aged nowMs budget t).rows.length + _ = t.rows.length :=
    length_delete_oldest t (spec.expires nowMs) budget
  rw [hage, Nat.add_zero] at hlen
  rw [hage, Nat.sub_zero, length_oldestEvents] at hcap
  rw [length_oldestEvents] at hage
  rcases h with ⟨r, hr, he⟩ | ⟨hpos, hmany⟩
  · have := List.length_pos_of_mem (mem_select.mpr ⟨hr, he⟩)
    omega
  · rw [TrimSpec.surplus, if_pos hpos, Table.select, List.filter_eq_self.mpr fun _ _ => rfl, hlen] at hcap
    omega

/-! ## The loop -/

/-- The loop of `TrimEventsCmd.Apply` ends, with this table and this number of deleted rows. -/
inductive TrimEnds (spec : TrimSpec) (nowMs : ℤ) : ℕ → Table EventRow.id → Table EventRow.id → ℕ → Prop
  | stop {budget : ℕ} {t : Table EventRow.id}
      (h : (trimRound spec nowMs budget t).2 = 0 ∨ budget - (trimRound spec nowMs budget t).2 = 0) :
      TrimEnds spec nowMs budget t (trimRound spec nowMs budget t).1 (trimRound spec nowMs budget t).2
  | again {budget n : ℕ} {t t' : Table EventRow.id}
      (h : ¬ ((trimRound spec nowMs budget t).2 = 0 ∨ budget - (trimRound spec nowMs budget t).2 = 0))
      (rest : TrimEnds spec nowMs (budget - (trimRound spec nowMs budget t).2) (trimRound spec nowMs budget t).1 t' n) :
      TrimEnds spec nowMs budget t t' ((trimRound spec nowMs budget t).2 + n)

/-- A round that goes on spends budget, so the model's bound on the rounds is none. -/
theorem trimEnds_trimLoop {fuel : ℕ} (hb : 1 ≤ budget) (hf : budget ≤ fuel) :
    TrimEnds spec nowMs budget t (trimLoop spec nowMs fuel budget t).1 (trimLoop spec nowMs fuel budget t).2 := by
  induction fuel generalizing budget t with
  | zero => exact absurd (hb.trans hf) (Nat.not_succ_le_zero 0)
  | succ fuel ih =>
    by_cases hstop : (trimRound spec nowMs budget t).2 = 0 ∨ budget - (trimRound spec nowMs budget t).2 = 0
    · rw [trimLoop]
      simp only [if_pos hstop]
      exact .stop hstop
    · obtain ⟨hn, hleft⟩ := not_or.mp hstop
      rw [trimLoop]
      simp only [if_neg hstop]
      exact .again hstop (ih (by omega) (by omega))

/-- What the loop does. -/
structure TrimmedBy (spec : TrimSpec) (nowMs : ℤ) (budget : ℕ) (t t' : Table EventRow.id) (n : ℕ) : Prop where
  bound : n ≤ budget
  rows : t'.rows.Sublist t.rows
  count : t'.rows.length + n = t.rows.length
  target : spec.target nowMs t' = spec.target nowMs t
  progress : 1 ≤ budget → spec.Exceeded nowMs t → n ≠ 0

theorem TrimEnds.trimmedBy (h : TrimEnds spec nowMs budget t t' n) : TrimmedBy spec nowMs budget t t' n := by
  induction h with
  | @stop budget t _ =>
    obtain ⟨hbound, hcount⟩ := trimRound_count spec nowMs budget t
    exact ⟨hbound, (trimRound_spec spec nowMs budget t).1, hcount, target_trimRound spec nowMs budget t,
      trimRound_progress⟩
  | @again budget n t t' hgo _ ih =>
    obtain ⟨hbound, hcount⟩ := trimRound_count spec nowMs budget t
    obtain ⟨hbound', hrows, hcount', htarget, -⟩ := ih
    refine ⟨by omega, hrows.trans (trimRound_spec spec nowMs budget t).1, by omega,
      htarget.trans (target_trimRound spec nowMs budget t), fun _ _ => ?_⟩
    have := (not_or.mp hgo).1
    omega

/-! ## Slices -/

/-- Slices at one instant, until one says that nothing is left to do. -/
inductive TrimmedDown (env : Env) (spec : TrimSpec) (batch : ℕ) : Store → Store → Prop
  | last {st st' : Store} {res : TrimResult} (h : trimEvents env spec batch st = .ok (res, st'))
      (hm : res.more = false) :
      TrimmedDown env spec batch st st'
  | more {st st₁ st' : Store} {res : TrimResult} (h : trimEvents env spec batch st = .ok (res, st₁))
      (hm : res.more = true)
      (rest : TrimmedDown env spec batch st₁ st') : TrimmedDown env spec batch st st'

variable {env : Env} {batch : ℕ} {st : Store}

/-- One slice. -/
theorem trimEvents_spec (hb : 1 ≤ batch) (env : Env) (spec : TrimSpec) (st : Store) : ∃ t n more,
    trimEvents env spec batch st = .ok (⟨n, more⟩, { st with events := t }) ∧
    TrimEnds spec env.nowMs batch st.events t n ∧ (more = true ↔ spec.Exceeded env.nowMs t) := by
  refine ⟨_, _, _, rfl, trimEnds_trimLoop hb le_rfl, ?_⟩
  generalize (trimLoop spec env.nowMs batch batch st.events).1 = t
  rw [decide_eq_true_iff, TrimSpec.Exceeded, or_comm]
  refine or_congr ?_ Iff.rfl
  simp only [List.any_eq_true, decide_eq_true_eq, TrimSpec.expires_iff, mem_iff]
  constructor
  · rintro ⟨hpos, r, hr, hold⟩
    exact ⟨r, hr, hpos, hold⟩
  · rintro ⟨r, hr, hpos, hold⟩
    exact ⟨hpos, r, hr, hold⟩

theorem exists_trimmedDown (hb : 1 ≤ batch) (st : Store) : ∃ st', TrimmedDown env spec batch st st' := by
  -- a slice that leaves work has deleted a row
  induction hlen : st.events.rows.length using Nat.strong_induction_on generalizing st with
  | _ len ih =>
    obtain ⟨t, n, more, hrun, hends, hmore⟩ := trimEvents_spec hb env spec st
    cases more with
    | false => exact ⟨_, .last hrun rfl⟩
    | true =>
      have hdone := hends.trimmedBy
      have hn := hdone.progress hb ((hmore.mp rfl).mono hdone.rows)
      have hcount := hdone.count
      obtain ⟨st', hst'⟩ := ih t.rows.length (by omega) { st with events := t } rfl
      exact ⟨st', .more hrun rfl hst'⟩

theorem TrimmedDown.eq_target {st' : Store} (hb : 1 ≤ batch) (h : TrimmedDown env spec batch st st') :
    st' = { st with events := spec.target env.nowMs st.events } := by
  induction h with
  | @last st st' res h hm =>
    obtain ⟨t, n, more, hrun, hends, hmore⟩ := trimEvents_spec hb env spec st
    rw [h] at hrun
    cases hrun
    have hdone : ¬ spec.Exceeded env.nowMs t := fun he => by
      rw [hmore.mpr he] at hm
      cases hm
    rw [← hends.trimmedBy.target, target_eq_self hdone]
  | @more st st₁ st' res h hm _ ih =>
    obtain ⟨t, n, more, hrun, hends, -⟩ := trimEvents_spec hb env spec st
    rw [h] at hrun
    cases hrun
    rw [ih, hends.trimmedBy.target]

/-- **Trimming.** With a batch of at least one row, the loop of a slice ends and deletes at most the batch; the slice
asks for another exactly if a bound is still exceeded; and slices repeated at one instant until none is asked for come
to an end and leave the rows within the age bound, the newest of them up to the ceiling, whatever the batch. -/
theorem trim_exact (env : Env) (spec : TrimSpec) (hb : 1 ≤ batch) (st : Store) :
    (∃ t n more, trimEvents env spec batch st = .ok (⟨n, more⟩, { st with events := t }) ∧
      TrimEnds spec env.nowMs batch st.events t n ∧ n ≤ batch ∧ t.rows.length + n = st.events.rows.length ∧
      (more = true ↔ spec.Exceeded env.nowMs t)) ∧
    (∃ st', TrimmedDown env spec batch st st') ∧
    ∀ st', TrimmedDown env spec batch st st' → st' = { st with events := spec.target env.nowMs st.events } := by
  obtain ⟨t, n, more, hrun, hends, hmore⟩ := trimEvents_spec hb env spec st
  refine ⟨⟨t, n, more, hrun, hends, hends.trimmedBy.bound, hends.trimmedBy.count, hmore⟩, exists_trimmedDown hb st, ?_⟩
  exact fun st' h => h.eq_target hb

/-- The five events of a stream with a consumer and three messages, with a ceiling of two and one row a slice: slices
leave the last two events. -/
theorem trim_exact_two : ∃ st', TrimmedDown (.atMs 10) ⟨8, 2⟩ 1 (playState (aSetup 3)).store st' ∧
    st'.events.rows.map EventRow.id = [4, 5] := by
  obtain ⟨-, ⟨st', hst'⟩, htarget⟩ := trim_exact (.atMs 10) ⟨8, 2⟩ (Nat.le_refl 1) (playState (aSetup 3)).store
  refine ⟨st', hst', ?_⟩
  rw [htarget st' hst']
  decide +kernel

end Trim

end Messq

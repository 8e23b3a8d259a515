import Mathlib

/-! # Keyed tables

A table of rows with a primary key, and the statements a relational store runs against it. The key
constraint is a field, so a table with two rows of one key cannot be built; every statement is described
through the lookup `find?`, which turns a table into a partial function from keys to rows
(`find?_delete`, `find?_update`, `find?_insert`). -/

namespace Messq.Lib

universe u v

/-- Rows told apart by `key`, in insertion order. -/
structure Table {κ : Type u} {ρ : Type v} (key : ρ → κ) where
  rows : List ρ
  nodup : (rows.map key).Nodup

namespace Table

variable {κ : Type u} {ρ : Type v} {key : ρ → κ} {k : κ} {P : κ → Prop} {r s : ρ} {p : ρ → Bool} {f : ρ → ρ}

instance : Membership ρ (Table key) := ⟨fun t r => r ∈ t.rows⟩

theorem mem_iff {t : Table key} : r ∈ t ↔ r ∈ t.rows := Iff.rfl

theorem eq_of_rows {t t' : Table key} (h : t.rows = t'.rows) : t = t' := by
  cases t
  cases h
  rfl

def empty : Table key := ⟨[], List.nodup_nil⟩

/-- `SELECT … WHERE p`, in insertion order. -/
def select (t : Table key) (p : ρ → Bool) : List ρ := t.rows.filter p

/-- `DELETE … WHERE p`. -/
def delete (t : Table key) (p : ρ → Bool) : Table key :=
  ⟨t.rows.filter fun r => !p r, t.nodup.sublist (List.filter_sublist.map key)⟩

theorem map_key_update {rows : List ρ} (hf : ∀ r, p r = true → key (f r) = key r) :
    (rows.map fun r => if p r then f r else r).map key = rows.map key := by
  rw [List.map_map]
  refine List.map_congr_left fun r _ => ?_
  by_cases hp : p r = true
  · simp [hp, hf r hp]
  · simp [hp]

/-- `UPDATE … SET f WHERE p`, for an assignment that leaves the key alone. -/
def update (t : Table key) (p : ρ → Bool) (f : ρ → ρ) (hf : ∀ r, p r = true → key (f r) = key r) : Table key :=
  ⟨t.rows.map fun r => if p r then f r else r, by rw [map_key_update hf]; exact t.nodup⟩

instance (t : Table key) (p : ρ → Prop) [DecidablePred p] : Decidable (∀ r ∈ t, p r) :=
  inferInstanceAs (Decidable (∀ r ∈ t.rows, p r))

instance (t : Table key) (p : ρ → Prop) [DecidablePred p] : Decidable (∃ r ∈ t, p r) :=
  inferInstanceAs (Decidable (∃ r ∈ t.rows, p r))

@[simp] theorem mem_empty (r : ρ) : r ∈ (empty : Table key) ↔ False := by simp [mem_iff, empty]

@[simp] theorem mem_select {t : Table key} : r ∈ t.select p ↔ r ∈ t ∧ p r = true :=
  List.mem_filter

theorem delete_eq_self {t : Table key} (h : ∀ r ∈ t, p r = false) : t.delete p = t :=
  eq_of_rows (List.filter_eq_self.mpr fun r hr => by rw [h r hr]; rfl)

@[simp] theorem mem_delete {t : Table key} : r ∈ t.delete p ↔ r ∈ t ∧ p r = false := by
  simp [mem_iff, delete]

theorem mem_update {t : Table key} {hf} : r ∈ t.update p f hf ↔ ∃ r₀ ∈ t, (if p r₀ then f r₀ else r₀) = r := by
  simp only [mem_iff, update, List.mem_map]

/-- Two rows of one key are one row. -/
theorem eq_of_key {t : Table key} (hr : r ∈ t) (hs : s ∈ t) (h : key r = key s) : r = s :=
  List.inj_on_of_nodup_map t.nodup hr hs h

theorem nodup_rows (t : Table key) : t.rows.Nodup := List.Nodup.of_map key t.nodup

theorem nodup_select (t : Table key) : (t.select p).Nodup := t.nodup_rows.filter p

/-- An update that keeps what a selection looks at keeps its size. -/
theorem length_select_update (t : Table key) {q : ρ → Bool} (f : ρ → ρ) (hf) (hp : ∀ r, q r = true → p (f r) = p r) :
    ((t.update q f hf).select p).length = (t.select p).length := by
  have hcongr : (p ∘ fun r => if q r then f r else r) = p := by
    funext r
    rw [Function.comp_apply]
    split
    · rename_i hq; exact hp r hq
    · rfl
  rw [select, update, List.filter_map, List.length_map, hcongr]
  rfl

theorem exists_of_select_length {t : Table key} (h : (t.select p).length = 1) :
    ∃ r ∈ t, ∀ s ∈ t, p s = true ↔ s = r := by
  obtain ⟨r, hr⟩ := List.length_eq_one_iff.mp h
  have hmem : ∀ s, s ∈ t ∧ p s = true ↔ s = r := fun s => by rw [← mem_select, hr, List.mem_singleton]
  refine ⟨r, ((hmem r).mpr rfl).1, fun s hs => ⟨fun hp => (hmem s).mp ⟨hs, hp⟩, fun he => ((hmem s).mpr he).2⟩⟩

/-- `ORDER BY f` gives rows in the order of `f`. -/
theorem pairwise_orderBy {α : Type v} {β : Type u} [LinearOrder β] (f : α → β) (l : List α) :
    (l.insertionSort fun a b => f a ≤ f b).Pairwise fun a b => f a ≤ f b := by
  have : Std.Total fun a b : α => f a ≤ f b := ⟨fun a b => le_total (f a) (f b)⟩
  have : IsTrans α fun a b => f a ≤ f b := ⟨fun _ _ _ => le_trans⟩
  exact List.pairwise_insertionSort _ l

/-- When no two rows have the same `f`, the order is strict. -/
theorem strict_orderBy {α : Type v} {β : Type u} [LinearOrder β] (f : α → β) {l : List α} (hnodup : l.Nodup)
    (hinj : ∀ a ∈ l, ∀ b ∈ l, f a = f b → a = b) :
    (l.insertionSort fun a b => f a ≤ f b).Pairwise fun a b => f a < f b := by
  have hnodup : (l.insertionSort fun a b => f a ≤ f b).Nodup := (List.perm_insertionSort _ l).nodup_iff.mpr hnodup
  refine ((pairwise_orderBy f l).and hnodup).imp_of_mem fun {a b} ha hb hab => ?_
  refine lt_of_le_of_ne hab.1 fun he => hab.2 ?_
  exact hinj a ((List.mem_insertionSort _).mp ha) b ((List.mem_insertionSort _).mp hb) he

/-- `WHERE p … ORDER BY f` is `WHERE p` of the ordered rows, when no two rows have the same `f`. -/
theorem orderBy_filter {α : Type v} {β : Type u} [LinearOrder β] (f : α → β) {l : List α}
    (hinj : ∀ a ∈ l, ∀ b ∈ l, f a = f b → a = b) (p : α → Bool) :
    (l.filter p).insertionSort (fun a b => f a ≤ f b) = (l.insertionSort fun a b => f a ≤ f b).filter p := by
  have hperm : ((l.filter p).insertionSort fun a b => f a ≤ f b).Perm
      ((l.insertionSort fun a b => f a ≤ f b).filter p) :=
    (List.perm_insertionSort _ _).trans ((List.perm_insertionSort _ l).symm.filter p)
  refine hperm.eq_of_pairwise (fun a b ha hb hab hba => ?_) (pairwise_orderBy f _) ((pairwise_orderBy f l).filter p)
  have ha : a ∈ l := List.mem_of_mem_filter ((List.mem_insertionSort _).mp ha)
  have hb : b ∈ l := (List.mem_insertionSort _).mp (List.mem_of_mem_filter hb)
  exact hinj a ha b hb (le_antisymm hab hba)

/-! ## Lookup by key -/

section Find

variable [DecidableEq κ]

/-- `SELECT … WHERE key = k`. -/
def find? (t : Table key) (k : κ) : Option ρ := t.rows.find? fun r => decide (key r = k)

theorem find?_eq_some {t : Table key} : t.find? k = some r ↔ r ∈ t ∧ key r = k := by
  constructor
  · intro h
    exact ⟨List.mem_of_find?_eq_some h, by simpa using List.find?_some h⟩
  · rintro ⟨hr, hk⟩
    cases h : t.find? k with
    | none => exact absurd hk (by simpa using List.find?_eq_none.mp h r hr)
    | some s =>
      have hs : s ∈ t := List.mem_of_find?_eq_some h
      have hsk : key s = k := by simpa using List.find?_some h
      rw [eq_of_key hr hs (hk.trans hsk.symm)]

theorem find?_eq_none {t : Table key} : t.find? k = none ↔ ∀ r ∈ t, key r ≠ k := by
  simp only [find?, List.find?_eq_none, decide_eq_true_eq, mem_iff, ne_eq]

theorem find?_key {t : Table key} (h : t.find? k = some r) : key r = k := (find?_eq_some.mp h).2

theorem mem_of_find? {t : Table key} (h : t.find? k = some r) : r ∈ t := (find?_eq_some.mp h).1

theorem find?_of_mem {t : Table key} (h : r ∈ t) : t.find? (key r) = some r := find?_eq_some.mpr ⟨h, rfl⟩

/-- Tables that answer every lookup alike have the same rows. -/
theorem perm_of_find? {t t' : Table key} (h : ∀ k, t.find? k = t'.find? k) : t.rows.Perm t'.rows := by
  refine (List.perm_ext_iff_of_nodup t.nodup_rows t'.nodup_rows).mpr fun r => ?_
  rw [← mem_iff, ← mem_iff]
  exact ⟨fun hr => mem_of_find? ((h _).symm.trans (find?_of_mem hr)),
    fun hr => mem_of_find? ((h _).trans (find?_of_mem hr))⟩

@[simp] theorem find?_empty (k : κ) : (empty : Table key).find? k = none := rfl

@[simp] theorem find?_delete (t : Table key) (p : ρ → Bool) (k : κ) :
    (t.delete p).find? k = (t.find? k).filter fun r => !p r := by
  refine Option.ext fun r => ?_
  simp only [find?_eq_some, mem_delete, Option.filter_eq_some_iff, Bool.not_eq_true', and_right_comm]

theorem hit_of_deleted {t : Table key} (hr : t.find? k = some r) (hn : (t.delete p).find? k = none) : p r = true := by
  rw [find?_delete, hr, Option.filter_eq_none_iff] at hn
  simpa using hn r rfl

@[simp] theorem find?_update (t : Table key) (p : ρ → Bool) (f : ρ → ρ) (hf) (k : κ) :
    (t.update p f hf).find? k = (t.find? k).map fun r => if p r then f r else r := by
  have hk : ∀ r, key (if p r then f r else r) = key r := by
    intro r
    by_cases hp : p r = true
    · simp [hp, hf r hp]
    · simp [hp]
  refine Option.ext fun r => ?_
  simp only [find?_eq_some, mem_update, Option.map_eq_some_iff]
  constructor
  · rintro ⟨⟨r₀, hr₀, rfl⟩, h⟩
    exact ⟨r₀, ⟨hr₀, (hk r₀).symm.trans h⟩, rfl⟩
  · rintro ⟨r₀, ⟨hr₀, h⟩, rfl⟩
    exact ⟨⟨r₀, hr₀, rfl⟩, (hk r₀).trans h⟩

/-- A delete whose condition is one on the key. -/
theorem find?_delete_key (t : Table key) [DecidablePred P] (hp : ∀ r, p r = decide (P (key r))) (k : κ) :
    (t.delete p).find? k = if P k then none else t.find? k := by
  rw [find?_delete]
  cases h : t.find? k with
  | none => simp
  | some r =>
    have hk : p r = decide (P k) := by rw [hp, find?_key h]
    by_cases hP : P k <;> simp [hk, hP]

/-- An update whose condition is one on the key. -/
theorem find?_update_key (t : Table key) (hf) [DecidablePred P] (hp : ∀ r, p r = decide (P (key r))) (k : κ) :
    (t.update p f hf).find? k = if P k then (t.find? k).map f else t.find? k := by
  rw [find?_update]
  cases h : t.find? k with
  | none => simp
  | some r =>
    have hk : p r = decide (P k) := by rw [hp, find?_key h]
    by_cases hP : P k <;> simp [hk, hP]

/-- A condition that holds of one key only selects the row of that key. -/
theorem select_eq_singleton {t : Table key} (hp : ∀ r, p r = true → key r = k) (hr : t.find? k = some r)
    (h : p r = true) : t.select p = [r] := by
  have hmem : ∀ s ∈ t.select p, s = r := by
    intro s hs
    obtain ⟨hs, hps⟩ := mem_select.mp hs
    have := find?_of_mem hs
    rw [hp s hps, hr] at this
    exact (Option.some.inj this).symm
  have hnodup : (t.select p).Nodup := (List.Nodup.of_map key t.nodup).filter p
  have hrep := List.eq_replicate_of_mem hmem
  have hin : r ∈ t.select p := mem_select.mpr ⟨mem_of_find? hr, h⟩
  rw [hrep, List.nodup_replicate] at hnodup
  rw [hrep, show (t.select p).length = 1 from Nat.le_antisymm hnodup (List.length_pos_of_mem hin)]
  rfl

/-! ## Insertion -/

/-- `INSERT`: refused when the key is taken. -/
def insert (t : Table key) (r : ρ) : Option (Table key) :=
  if h : t.find? (key r) = none then
    some ⟨t.rows ++ [r], by
      rw [List.map_append, List.nodup_append]
      refine ⟨t.nodup, by simp, ?_⟩
      intro a ha b hb
      obtain ⟨s, hs, rfl⟩ := List.mem_map.mp ha
      obtain rfl : b = key r := by simpa using hb
      exact find?_eq_none.mp h s hs⟩
  else none

/-- `INSERT OR IGNORE`. -/
def insertIgnore (t : Table key) (r : ρ) : Table key := (t.insert r).getD t

/-- `INSERT … ON CONFLICT(key) DO UPDATE SET` every other column. -/
def upsert (t : Table key) (r : ρ) : Table key :=
  (t.insert r).getD (t.update (fun s => decide (key s = key r)) (fun _ => r) fun _ h => (by simpa using h : _ = _).symm)

theorem rows_insert {t t' : Table key} (h : t.insert r = some t') : t'.rows = t.rows ++ [r] := by
  unfold insert at h
  split at h
  · cases h; rfl
  · cases h

theorem insert_eq_none {t : Table key} : t.insert r = none ↔ ∃ s, t.find? (key r) = some s := by
  unfold insert
  split
  · rename_i h; simp [h]
  · rename_i h; simpa using Option.ne_none_iff_exists'.mp h

theorem find?_of_insert {t t' : Table key} (h : t.insert r = some t') : t.find? (key r) = none := by
  unfold insert at h
  split at h
  · assumption
  · cases h

theorem mem_insert {t t' : Table key} (h : t.insert r = some t') : s ∈ t' ↔ s ∈ t ∨ s = r := by
  unfold insert at h
  split at h
  · cases h; simp [mem_iff]
  · cases h

theorem find?_insert {t t' : Table key} (h : t.insert r = some t') (k : κ) :
    t'.find? k = if k = key r then some r else t.find? k := by
  refine Option.ext fun s => ?_
  rw [find?_eq_some, mem_insert h]
  split
  · rename_i hk
    subst hk
    constructor
    · rintro ⟨hs | rfl, hk⟩
      · exact absurd hk (find?_eq_none.mp (find?_of_insert h) s hs)
      · rfl
    · rintro ⟨⟩
      exact ⟨Or.inr rfl, rfl⟩
  · rename_i hk
    rw [find?_eq_some]
    constructor
    · rintro ⟨hs | rfl, hk'⟩
      · exact ⟨hs, hk'⟩
      · exact absurd hk'.symm hk
    · rintro ⟨hs, hk'⟩
      exact ⟨Or.inl hs, hk'⟩

theorem insertIgnore_of_find? {t : Table key} (h : t.find? (key r) = some s) : t.insertIgnore r = t := by
  rw [insertIgnore, insert_eq_none.mpr ⟨s, h⟩, Option.getD_none]

@[simp] theorem find?_insertIgnore (t : Table key) (r : ρ) (k : κ) :
    (t.insertIgnore r).find? k = if k = key r then some ((t.find? (key r)).getD r) else t.find? k := by
  unfold insertIgnore
  cases h : t.insert r with
  | some t' => simp [find?_insert h, find?_of_insert h]
  | none =>
    obtain ⟨s, hs⟩ := insert_eq_none.mp h
    by_cases hk : k = key r
    · simp [hk, hs]
    · simp [hk]

@[simp] theorem find?_upsert (t : Table key) (r : ρ) (k : κ) :
    (t.upsert r).find? k = if k = key r then some r else t.find? k := by
  unfold upsert
  cases h : t.insert r with
  | some t' => simp [find?_insert h]
  | none =>
    obtain ⟨s, hs⟩ := insert_eq_none.mp h
    by_cases hk : k = key r
    · subst hk; simp [hs, find?_key hs]
    · simp only [Option.getD_none, find?_update, hk, if_false]
      cases hs' : t.find? k with
      | none => rfl
      | some s' =>
        have : key s' ≠ key r := fun e => hk ((find?_key hs').symm.trans e)
        simp [this]

/-! ## Statements on one row -/

/-- `t'` is `t` with `o` under the key `k`. -/
def Sets (t : Table key) (k : κ) (o : Option ρ) (t' : Table key) : Prop :=
  ∀ k', t'.find? k' = if k' = k then o else t.find? k'

section Sets

variable {t t' : Table key} {k' : κ} {o : Option ρ}

theorem Sets.same (h : t.Sets k o t') : t'.find? k = o := by rw [h, if_pos rfl]

theorem Sets.other (h : t.Sets k o t') (hk : k' ≠ k) : t'.find? k' = t.find? k' := by rw [h, if_neg hk]

/-- A delete whose condition one row meets. -/
theorem sets_delete (hr : r ∈ t) (hp : ∀ s ∈ t, p s = true ↔ s = r) : t.Sets (key r) none (t.delete p) := by
  intro k'
  rw [find?_delete]
  split
  · rename_i hk
    simp [hk, find?_of_mem hr, (hp r hr).mpr rfl]
  · rename_i hk
    cases hs : t.find? k' with
    | none => rfl
    | some s =>
      have hne : p s = false := Bool.eq_false_iff.mpr fun h => by
        rw [(hp s (mem_of_find? hs)).mp h] at hs
        exact hk (find?_key hs).symm
      simp [hne]

/-- An update whose condition one row meets. -/
theorem sets_update (hf) (hr : r ∈ t) (hp : ∀ s ∈ t, p s = true ↔ s = r) :
    t.Sets (key r) (some (f r)) (t.update p f hf) := by
  intro k'
  rw [find?_update]
  split
  · rename_i hk
    simp [hk, find?_of_mem hr, (hp r hr).mpr rfl]
  · rename_i hk
    cases hs : t.find? k' with
    | none => rfl
    | some s =>
      have hne : p s = false := Bool.eq_false_iff.mpr fun h => by
        rw [(hp s (mem_of_find? hs)).mp h] at hs
        exact hk (find?_key hs).symm
      simp [hne]

end Sets

end Find

end Table

end Messq.Lib

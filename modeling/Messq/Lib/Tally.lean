import Messq.Lib.Table

/-! # Tallies

The number of rows of a list and their total weight, as one pair, and how the tally of a selection changes when its
table does. A counter kept beside a table is exact when it is moved by the tally of what was inserted or deleted. -/

namespace Messq.Lib

universe u v

variable {κ : Type u} {ρ : Type v} {key : ρ → κ} (w : ρ → ℤ)

/-- How many rows there are, and what they weigh together. -/
def tally (l : List ρ) : ℤ × ℤ := (l.length, (l.map w).sum)

theorem tally_nil : tally w [] = 0 := rfl

theorem tally_append (l l' : List ρ) : tally w (l ++ l') = tally w l + tally w l' := by
  simp [tally]

theorem tally_perm {l l' : List ρ} (h : l.Perm l') : tally w l = tally w l' := by
  simp [tally, h.length_eq, (h.map w).sum_eq]

theorem tally_singleton (r : ρ) : tally w [r] = (1, w r) := by simp [tally]

theorem tally_cons (r : ρ) (l : List ρ) : tally w (r :: l) = (1, w r) + tally w l := by
  rw [← List.singleton_append, tally_append, tally_singleton]

theorem tally_nonneg {l : List ρ} (h : ∀ r ∈ l, 0 ≤ w r) : 0 ≤ (tally w l).1 ∧ 0 ≤ (tally w l).2 := by
  refine ⟨Int.natCast_nonneg _, List.sum_nonneg fun x hx => ?_⟩
  obtain ⟨r, hr, rfl⟩ := List.mem_map.mp hx
  exact h r hr

/-- The rows that meet a condition, and those that do not. -/
theorem tally_split (p : ρ → Bool) (l : List ρ) :
    tally w (l.filter p) + tally w (l.filter fun r => !p r) = tally w l := by
  rw [← tally_append]
  exact tally_perm w (List.filter_append_perm p l)

/-- Counting the rows of each of several keys counts the rows of all of them. -/
theorem sum_length_filter_keys [BEq κ] [LawfulBEq κ] (f : ρ → κ) (p : ρ → Bool) {ks : List κ} (h : ks.Nodup)
    (l : List ρ) :
    (ks.map fun k => ((l.filter fun r => f r == k && p r).length : ℤ)).sum =
      (l.filter fun r => ks.contains (f r) && p r).length := by
  induction ks with
  | nil => simp
  | cons k ks ih =>
    obtain ⟨hk, hks⟩ := List.nodup_cons.mp h
    have hhit : (l.filter fun r => (k :: ks).contains (f r) && p r).filter (fun r => f r == k) =
        l.filter fun r => f r == k && p r := by
      rw [List.filter_filter]
      refine List.filter_congr fun r _ => ?_
      by_cases hr : f r = k
      · simp [hr]
      · simp [beq_false_of_ne hr]
    have hmiss : (l.filter fun r => (k :: ks).contains (f r) && p r).filter (fun r => !(f r == k)) =
        l.filter fun r => ks.contains (f r) && p r := by
      rw [List.filter_filter]
      refine List.filter_congr fun r _ => ?_
      by_cases hr : f r = k
      · simp [hr, hk]
      · simp [beq_false_of_ne hr, hr]
    rw [List.map_cons, List.sum_cons, ih hks, ← hhit, ← hmiss, ← Nat.cast_add, ← List.length_eq_length_filter_add]

/-- A delete takes away the tally of what it hits. -/
theorem tally_delete (t : Table key) (p q : ρ → Bool) :
    tally w ((t.delete q).select p) = tally w (t.select p) - tally w ((t.select p).filter q) := by
  have hsel : (t.delete q).select p = (t.select p).filter fun r => !q r := by
    simp only [Table.select, Table.delete, List.filter_filter]
    exact List.filter_congr fun r _ => Bool.and_comm _ _
  rw [hsel, eq_sub_iff_add_eq', tally_split]

theorem tally_insert [DecidableEq κ] {t t' : Table key} {r : ρ} (h : t.insert r = some t') (p : ρ → Bool) :
    tally w (t'.select p) = tally w (t.select p) + if p r then (1, w r) else 0 := by
  rw [Table.select, Table.rows_insert h, List.filter_append, tally_append]
  by_cases hp : p r <;> simp [hp, tally_singleton, tally_nil, Table.select]

/-- An update that keeps the weight, and whether a row is selected, keeps the tally. -/
theorem tally_update (t : Table key) {p q : ρ → Bool} {f : ρ → ρ} (hf) (hp : ∀ r, p (f r) = p r)
    (hw : ∀ r, w (f r) = w r) :
    tally w ((t.update q f hf).select p) = tally w (t.select p) := by
  have hp' : ∀ r, p (if q r then f r else r) = p r := fun r => by split <;> simp [hp]
  have hw' : ∀ r, w (if q r then f r else r) = w r := fun r => by split <;> simp [hw]
  simp only [tally, Table.select, Table.update, List.filter_map, List.length_map, List.map_map,
    Function.comp_def, hp', hw']

/-- Tables that agree on the selected keys have the same tally. -/
theorem tally_congr [DecidableEq κ] {t t' : Table key} {p : ρ → Bool} {P : κ → Prop} (hp : ∀ r, p r = true ↔ P (key r))
    (h : ∀ k, P k → t'.find? k = t.find? k) : tally w (t'.select p) = tally w (t.select p) := by
  refine tally_perm w ((List.perm_ext_iff_of_nodup t'.nodup_select t.nodup_select).mpr fun r => ?_)
  rw [Table.mem_select, Table.mem_select]
  refine and_congr_left fun hr => ?_
  have hk := h (key r) ((hp r).mp hr)
  exact ⟨fun hm => Table.mem_of_find? (hk ▸ Table.find?_of_mem hm),
    fun hm => Table.mem_of_find? (hk.symm ▸ Table.find?_of_mem hm)⟩

/-! ## Numbers of an interval -/

section Interval

variable {l : List ℤ} {a b : ℤ}

theorem length_toFinset (hn : l.Nodup) : (l.length : ℤ) = l.toFinset.card := by
  rw [List.toFinset_card_of_nodup hn]

theorem card_Ico_eq (a b : ℤ) : ((Finset.Ico a b).card : ℤ) = max (b - a) 0 := by
  rw [Int.card_Ico, Int.toNat_eq_max]

/-- Distinct numbers of an interval are not more than it has. -/
theorem length_le_interval (hn : l.Nodup) (h : ∀ x ∈ l, a ≤ x ∧ x < b) : (l.length : ℤ) ≤ max (b - a) 0 := by
  have hsub : l.toFinset ⊆ Finset.Ico a b := fun x hx => Finset.mem_Ico.mpr (h x (List.mem_toFinset.mp hx))
  rw [length_toFinset hn, ← card_Ico_eq]
  exact_mod_cast Finset.card_le_card hsub

/-- They are as many exactly if none is missing. -/
theorem length_eq_interval_iff (hn : l.Nodup) (h : ∀ x ∈ l, a ≤ x ∧ x < b) :
    (l.length : ℤ) = max (b - a) 0 ↔ ∀ x, a ≤ x → x < b → x ∈ l := by
  have hsub : l.toFinset ⊆ Finset.Ico a b := fun x hx => Finset.mem_Ico.mpr (h x (List.mem_toFinset.mp hx))
  rw [length_toFinset hn, ← card_Ico_eq, Nat.cast_inj]
  constructor
  · intro hcard x h₁ h₂
    have heq := Finset.eq_of_subset_of_card_le hsub hcard.ge
    rw [← List.mem_toFinset, heq, Finset.mem_Ico]
    exact ⟨h₁, h₂⟩
  · intro hall
    refine congrArg _ (hsub.antisymm fun x hx => ?_)
    obtain ⟨h₁, h₂⟩ := Finset.mem_Ico.mp hx
    exact List.mem_toFinset.mpr (hall x h₁ h₂)

end Interval

end Messq.Lib

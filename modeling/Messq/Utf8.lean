import Messq.Json

/-! # UTF-8 texts

A text is valid exactly when it is the encoding of a list of runes (`validString_iff`), and reading it gives the runes
back (`runes_encodeRunes`). What JSON makes of a string is always valid, and is the string where that was valid already
(`coerceUTF8_eq_self`). -/

namespace Messq

variable {bs s : Bytes} {rs : List ℕ} {r : ℕ}

/-- The text of a list of runes. -/
def encodeRunes (rs : List ℕ) : Bytes := rs.flatMap encodeRune

@[simp] theorem encodeRunes_nil : encodeRunes [] = [] := rfl

@[simp] theorem encodeRunes_cons (r : ℕ) (rs : List ℕ) : encodeRunes (r :: rs) = encodeRune r ++ encodeRunes rs := rfl

@[simp] theorem encodeRunes_append (rs rs' : List ℕ) : encodeRunes (rs ++ rs') = encodeRunes rs ++ encodeRunes rs' :=
  List.flatMap_append

theorem encodeRune_ascii (h : r < 0x80) : encodeRune r = [r.toUInt8] := by rw [encodeRune, if_pos h]

/-- An ASCII byte of an encoded rune is the rune. -/
theorem mem_encodeRune_ascii {c : UInt8} (hr : IsRune r) (hc : c.toNat < 0x80) (h : c ∈ encodeRune r) :
    c.toNat = r := by
  unfold IsRune at hr
  unfold encodeRune at h
  split_ifs at h
  all_goals
    simp only [List.mem_cons, List.not_mem_nil, or_false] at h
    rcases h with rfl | rfl | rfl | rfl <;> rw [toUInt8_toNat (by omega)] at hc ⊢ <;> omega

theorem runesFrom_skip (bs rest : Bytes) : runesFrom bs.length (bs ++ rest) = runes rest := by
  induction bs with
  | nil => rfl
  | cons b bs ih => exact ih

theorem runes_encodeRune (h : IsRune r) (rest : Bytes) : runes (encodeRune r ++ rest) = some r :: runes rest := by
  have hdec := decodeRune_encodeRune h rest
  obtain ⟨b, t, he⟩ := List.exists_cons_of_ne_nil (encodeRune_ne_nil r)
  rw [he, List.cons_append, List.length_cons] at hdec
  rw [he, List.cons_append, runes, runesFrom, hdec, Nat.add_sub_cancel, runesFrom_skip]

/-- Reading what was written. -/
theorem runes_encodeRunes_append (h : ∀ r ∈ rs, IsRune r) (rest : Bytes) :
    runes (encodeRunes rs ++ rest) = rs.map some ++ runes rest := by
  induction rs with
  | nil => rfl
  | cons r rs ih =>
    obtain ⟨hr, hrs⟩ := List.forall_mem_cons.mp h
    rw [encodeRunes_cons, List.append_assoc, runes_encodeRune hr, ih hrs]
    rfl

theorem runes_encodeRunes (h : ∀ r ∈ rs, IsRune r) : runes (encodeRunes rs) = rs.map some := by
  have := runes_encodeRunes_append h []
  rwa [List.append_nil, show runes [] = [] from rfl, List.append_nil] at this

theorem encodeRunes_inj {rs' : List ℕ} (h : ∀ r ∈ rs, IsRune r) (h' : ∀ r ∈ rs', IsRune r)
    (he : encodeRunes rs = encodeRunes rs') : rs = rs' := by
  have := congrArg runes he
  rw [runes_encodeRunes h, runes_encodeRunes h'] at this
  exact List.map_injective_iff.mpr (Option.some_injective _) this

theorem validString_encodeRunes (h : ∀ r ∈ rs, IsRune r) : validString (encodeRunes rs) = true := by
  rw [validString, runes_encodeRunes h]
  simp

/-- A text is valid exactly when it is the encoding of some runes. -/
theorem validString_iff : validString s = true ↔ ∃ rs, (∀ r ∈ rs, IsRune r) ∧ s = encodeRunes rs := by
  constructor
  · -- the induction is on the length of what is left to read
    induction hn : s.length using Nat.strong_induction_on generalizing s with
    | _ n ih =>
      intro h
      cases s with
      | nil => exact ⟨[], fun _ hr => absurd hr List.not_mem_nil, rfl⟩
      | cons b rest =>
        have hfirst : (decodeRune (b :: rest)).1.isSome = true := by
          rw [validString, runes, runesFrom, List.all_cons, Bool.and_eq_true] at h
          exact h.1
        obtain ⟨r, hr⟩ := Option.isSome_iff_exists.mp hfirst
        obtain ⟨hrune, t, ht⟩ := decodeRune_some hr
        have hvalid : validString t = true := by
          rw [ht, validString, runes_encodeRune hrune, List.all_cons] at h
          exact h
        have hlt : t.length < n := by
          have hlen := congrArg List.length ht
          rw [List.length_append] at hlen
          have := List.length_pos_iff.mpr (encodeRune_ne_nil r)
          omega
        obtain ⟨rs, hrs, rfl⟩ := ih t.length hlt rfl hvalid
        exact ⟨r :: rs, List.forall_mem_cons.mpr ⟨hrune, hrs⟩, ht⟩
  · rintro ⟨rs, hrs, rfl⟩
    exact validString_encodeRunes hrs

theorem ascii_of_all (h : bs.all (fun b => b.toNat < 0x80) = true) : ∀ b ∈ bs, b.toNat < 0x80 :=
  fun b hb => of_decide_eq_true (List.all_eq_true.mp h b hb)

/-- ASCII texts are their own runes. -/
theorem encodeRunes_ascii (h : ∀ b ∈ bs, b.toNat < 0x80) : encodeRunes (bs.map UInt8.toNat) = bs := by
  induction bs with
  | nil => rfl
  | cons b bs ih =>
    obtain ⟨hb, hbs⟩ := List.forall_mem_cons.mp h
    rw [List.map_cons, encodeRunes_cons, encodeRune_ascii hb, ih hbs, toUInt8_eq rfl]
    rfl

/-! ## Cutting on a rune boundary -/

theorem takeRunes_skip (budget : ℕ) (bs rest : Bytes) :
    takeRunes budget bs.length (bs ++ rest) = bs ++ takeRunes budget 0 rest := by
  induction bs with
  | nil => rfl
  | cons b bs ih => exact congrArg (b :: ·) ih

theorem takeRunes_encodeRune (h : IsRune r) (budget : ℕ) (rest : Bytes) :
    takeRunes budget 0 (encodeRune r ++ rest) = if (encodeRune r).length > budget then []
      else encodeRune r ++ takeRunes (budget - (encodeRune r).length) 0 rest := by
  have hdec := decodeRune_encodeRune h rest
  obtain ⟨b, t, he⟩ := List.exists_cons_of_ne_nil (encodeRune_ne_nil r)
  rw [he] at hdec ⊢
  rw [List.cons_append] at hdec ⊢
  rw [takeRunes, hdec]
  dsimp only
  rw [List.length_cons, Nat.add_sub_cancel, takeRunes_skip]
  rfl

/-- The cut takes whole runes, as many as fit. -/
theorem takeRunes_encodeRunes (h : ∀ r ∈ rs, IsRune r) (budget : ℕ) :
    ∃ kept cut, rs = kept ++ cut ∧ takeRunes budget 0 (encodeRunes rs) = encodeRunes kept ∧
      (encodeRunes kept).length ≤ budget ∧
      ∀ r ∈ cut.head?, budget < (encodeRunes (kept ++ [r])).length := by
  induction rs generalizing budget with
  | nil => exact ⟨[], [], rfl, rfl, Nat.zero_le _, fun r hr => absurd hr (by simp)⟩
  | cons r rs ih =>
    obtain ⟨hr, hrs⟩ := List.forall_mem_cons.mp h
    rw [encodeRunes_cons, takeRunes_encodeRune hr]
    by_cases hfit : (encodeRune r).length > budget
    · refine ⟨[], r :: rs, rfl, if_pos hfit, Nat.zero_le _, fun x hx => ?_⟩
      obtain rfl := Option.some.inj hx
      rwa [List.nil_append, encodeRunes_cons, encodeRunes_nil, List.append_nil]
    · obtain ⟨kept, cut, rfl, htake, hle, hnext⟩ := ih hrs (budget - (encodeRune r).length)
      refine ⟨r :: kept, cut, rfl, ?_, ?_, fun x hx => ?_⟩
      · rw [if_neg hfit, htake, encodeRunes_cons]
      · rw [encodeRunes_cons, List.length_append]
        omega
      · have := hnext x hx
        rw [List.cons_append, encodeRunes_cons, List.length_append]
        omega

/-! ## What JSON makes of a string -/

theorem isRune_runeError : IsRune runeError := .inr (by decide)

/-- The runes of a string, an invalid byte as U+FFFD. -/
def coercedRunes (s : Bytes) : List ℕ := (runes s).map fun r => r.getD runeError

theorem coercedRunes_isRune (s : Bytes) : ∀ r ∈ coercedRunes s, IsRune r := by
  intro r hr
  obtain ⟨o, ho, rfl⟩ := List.mem_map.mp hr
  cases o with
  | none => exact isRune_runeError
  | some r => exact runesFrom_isRune ho

theorem coerceUTF8_eq (s : Bytes) : coerceUTF8 s = encodeRunes (coercedRunes s) := by
  rw [coerceUTF8, encodeRunes, coercedRunes, List.flatMap_map]

theorem coerceUTF8_encodeRunes (h : ∀ r ∈ rs, IsRune r) : coerceUTF8 (encodeRunes rs) = encodeRunes rs := by
  rw [coerceUTF8_eq, coercedRunes, runes_encodeRunes h, List.map_map]
  exact congrArg encodeRunes (List.map_id rs)

theorem validString_coerceUTF8 (s : Bytes) : validString (coerceUTF8 s) = true := by
  rw [coerceUTF8_eq]
  exact validString_encodeRunes (coercedRunes_isRune s)

/-- Exactly the valid texts survive JSON as they are. -/
theorem coerceUTF8_eq_self : coerceUTF8 s = s ↔ validString s = true := by
  constructor
  · exact fun h => h ▸ validString_coerceUTF8 s
  · intro h
    obtain ⟨rs, hrs, rfl⟩ := validString_iff.mp h
    exact coerceUTF8_encodeRunes hrs

end Messq

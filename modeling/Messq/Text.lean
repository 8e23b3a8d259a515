import Mathlib

/-! # Byte strings

Go strings are byte strings. This module has the pieces of the standard library the broker's text handling
rests on: rune decoding as `range` does it, `utf8.ValidString` and decimal rendering, which is injective
(`itoa_injective`) and writes no separator (`itoa_no_slash`). -/

namespace Messq

variable {c : Char} {b : UInt8} {n : ℕ}

abbrev Bytes := List UInt8

instance : LawfulBEq Bytes := inferInstance

instance : LawfulBEq (Bytes × ℤ) := inferInstance

/-- The bytes of a string literal. -/
def str (s : String) : Bytes := s.toList.flatMap String.utf8EncodeChar

/-- The ASCII byte of a character. -/
def chr (c : Char) : UInt8 := c.toNat.toUInt8

/-! ## UTF-8 -/

/-- `utf8.DecodeRune`: the first rune and its width; `none` is an invalid byte, of width one. -/
def decodeRune : Bytes → Option ℕ × ℕ
  | [] => (none, 0)
  | b0 :: rest =>
    let n0 := b0.toNat
    -- the accepted range of the second byte depends on the first, which excludes overlong forms and surrogates
    let second (lo hi : ℕ) (k : ℕ → Option ℕ × ℕ) : Option ℕ × ℕ :=
      match rest with
      | b1 :: _ => if lo ≤ b1.toNat ∧ b1.toNat ≤ hi then k (b1.toNat - 0x80) else (none, 1)
      | [] => (none, 1)
    let nth (i : ℕ) (k : ℕ → Option ℕ × ℕ) : Option ℕ × ℕ :=
      match rest.drop i with
      | b :: _ => if 0x80 ≤ b.toNat ∧ b.toNat ≤ 0xBF then k (b.toNat - 0x80) else (none, 1)
      | [] => (none, 1)
    let three (lo hi : ℕ) := second lo hi fun c1 => nth 1 fun c2 =>
      (some ((n0 - 0xE0) * 4096 + c1 * 64 + c2), 3)
    let four (lo hi : ℕ) := second lo hi fun c1 => nth 1 fun c2 => nth 2 fun c3 =>
      (some ((n0 - 0xF0) * 262144 + c1 * 4096 + c2 * 64 + c3), 4)
    if n0 < 0x80 then (some n0, 1)
    else if n0 < 0xC2 then (none, 1)
    else if n0 ≤ 0xDF then second 0x80 0xBF fun c1 => (some ((n0 - 0xC0) * 64 + c1), 2)
    else if n0 = 0xE0 then three 0xA0 0xBF
    else if n0 = 0xED then three 0x80 0x9F
    else if n0 ≤ 0xEF then three 0x80 0xBF
    else if n0 = 0xF0 then four 0x90 0xBF
    else if n0 ≤ 0xF3 then four 0x80 0xBF
    else if n0 = 0xF4 then four 0x80 0x8F
    else (none, 1)

/-- `for _, r := range s`, where the first `skip` bytes belong to a rune already read. -/
def runesFrom : ℕ → Bytes → List (Option ℕ)
  | _, [] => []
  | skip + 1, _ :: rest => runesFrom skip rest
  | 0, b :: rest => (decodeRune (b :: rest)).1 :: runesFrom ((decodeRune (b :: rest)).2 - 1) rest

def runes (s : Bytes) : List (Option ℕ) := runesFrom 0 s

/-- `utf8.ValidString`. -/
def validString (s : Bytes) : Bool := (runes s).all Option.isSome

/-- `utf8.AppendRune`, for a rune `decodeRune` can return. -/
def encodeRune (r : ℕ) : Bytes :=
  if r < 0x80 then [r.toUInt8]
  else if r < 0x800 then [(0xC0 + r / 64).toUInt8, (0x80 + r % 64).toUInt8]
  else if r < 0x10000 then [(0xE0 + r / 4096).toUInt8, (0x80 + r / 64 % 64).toUInt8, (0x80 + r % 64).toUInt8]
  else [(0xF0 + r / 262144).toUInt8, (0x80 + r / 4096 % 64).toUInt8, (0x80 + r / 64 % 64).toUInt8,
    (0x80 + r % 64).toUInt8]

/-- `utf8.RuneError`, what an invalid byte reads as. -/
def runeError : ℕ := 0xFFFD

/-- `unicode.IsControl`. -/
def isControl (r : ℕ) : Bool := r < 0x20 || (0x7F ≤ r && r ≤ 0x9F)

/-- `unicode.IsSpace`. -/
def isSpace (r : ℕ) : Bool :=
  (0x09 ≤ r && r ≤ 0x0D) || r == 0x20 || r == 0x85 || r == 0xA0 || r == 0x1680 || (0x2000 ≤ r && r ≤ 0x200A) ||
    r == 0x2028 || r == 0x2029 || r == 0x202F || r == 0x205F || r == 0x3000

/-- The runes of `s` with their bytes, where the first `skip` bytes belong to the rune `acc` is the start of. -/
def chunksFrom : ℕ → Option ℕ → Bytes → Bytes → List (Option ℕ × Bytes)
  | _, r, acc, [] => if acc = [] then [] else [(r, acc)]
  | skip + 1, r, acc, b :: rest => chunksFrom skip r (acc ++ [b]) rest
  | 0, r, acc, b :: rest =>
    let next := chunksFrom ((decodeRune (b :: rest)).2 - 1) (decodeRune (b :: rest)).1 [b] rest
    if acc = [] then next else (r, acc) :: next

/-- `strings.TrimSpace`. -/
def trimSpace (s : Bytes) : Bytes :=
  let space (c : Option ℕ × Bytes) : Bool := c.1.any isSpace
  let chunks := (chunksFrom 0 none [] s).dropWhile space
  ((chunks.reverse.dropWhile space).reverse).flatMap Prod.snd

/-- The longest run of whole runes within `budget` bytes; the first `skip` bytes are paid for. -/
def takeRunes : ℕ → ℕ → Bytes → Bytes
  | _, _, [] => []
  | budget, skip + 1, b :: rest => b :: takeRunes budget skip rest
  | budget, 0, b :: rest =>
    let size := (decodeRune (b :: rest)).2
    if size > budget then [] else b :: takeRunes (budget - size) (size - 1) rest

/-- `truncateUTF8`: at most `max` bytes, never splitting a rune; a bound of zero is no bound. -/
def truncateUTF8 (s : Bytes) (max : ℕ) : Bytes := if max = 0 ∨ s.length ≤ max then s else takeRunes max 0 s

/-! ## Decoding and encoding -/

/-- A Unicode scalar value, what a valid encoding decodes to. -/
def IsRune (r : ℕ) : Prop := r < 0xD800 ∨ (0xE000 ≤ r ∧ r < 0x110000)

section Decode

variable {l : Bytes} {lo hi r : ℕ}

theorem toUInt8_eq (h : n = b.toNat) : n.toUInt8 = b := by
  rw [h, Nat.toUInt8_eq, UInt8.ofNat_toNat]

/-- A byte of a rune after the first, in its range. -/
theorem decodeRune_cont {k : ℕ → Option ℕ × ℕ}
    (h : (match l with
      | b :: _ => if lo ≤ b.toNat ∧ b.toNat ≤ hi then k (b.toNat - 0x80) else (none, 1)
      | [] => (none, 1)).1 = some r) :
    ∃ b t, l = b :: t ∧ lo ≤ b.toNat ∧ b.toNat ≤ hi ∧ (k (b.toNat - 0x80)).1 = some r := by
  cases l with
  | nil => cases h
  | cons b t =>
    simp only at h
    split at h
    · rename_i hb
      exact ⟨b, t, rfl, hb.1, hb.2, h⟩
    · cases h

/-- A rune of two bytes. -/
theorem decodeRune_two (hb : 0xC2 ≤ b.toNat ∧ b.toNat ≤ 0xDF) (h : (match l with
      | b₁ :: _ => if 0x80 ≤ b₁.toNat ∧ b₁.toNat ≤ 0xBF then (some ((b.toNat - 0xC0) * 64 + (b₁.toNat - 0x80)), 2)
        else (none, 1)
      | [] => (none, 1)).1 = some r) :
    IsRune r ∧ ∃ t, b :: l = encodeRune r ++ t := by
  obtain ⟨b₁, t, rfl, h₁, h₁', h⟩ := decodeRune_cont (k := fun c => (some ((b.toNat - 0xC0) * 64 + c), 2)) h
  have hr := Option.some.inj h
  refine ⟨.inl (by omega), t, ?_⟩
  rw [encodeRune, if_neg (by omega), if_pos (by omega), toUInt8_eq (b := b) (by omega), toUInt8_eq (b := b₁) (by omega)]
  rfl

/-- A rune of three bytes: the range of the second excludes overlong forms and surrogates. -/
theorem decodeRune_three (hb : 0xE0 ≤ b.toNat ∧ b.toNat ≤ 0xEF) (hlo : 0x80 ≤ lo) (hhi : hi ≤ 0xBF)
    (hmin : b.toNat = 0xE0 → 0xA0 ≤ lo) (hmax : b.toNat = 0xED → hi ≤ 0x9F) (h : (match l with
      | b₁ :: _ => if lo ≤ b₁.toNat ∧ b₁.toNat ≤ hi then
        (match l.drop 1 with
          | b₂ :: _ => if 0x80 ≤ b₂.toNat ∧ b₂.toNat ≤ 0xBF then
            (some ((b.toNat - 0xE0) * 4096 + (b₁.toNat - 0x80) * 64 + (b₂.toNat - 0x80)), 3) else (none, 1)
          | [] => (none, 1)) else (none, 1)
      | [] => (none, 1)).1 = some r) :
    IsRune r ∧ ∃ t, b :: l = encodeRune r ++ t := by
  obtain ⟨b₁, l, rfl, h₁, h₁', h⟩ := decodeRune_cont (k := fun c₁ => match l.drop 1 with
    | b₂ :: _ => if 0x80 ≤ b₂.toNat ∧ b₂.toNat ≤ 0xBF then
      (some ((b.toNat - 0xE0) * 4096 + c₁ * 64 + (b₂.toNat - 0x80)), 3) else (none, 1)
    | [] => (none, 1)) h
  obtain ⟨b₂, t, ht, h₂, h₂', hr⟩ := decodeRune_cont
    (k := fun c₂ => (some ((b.toNat - 0xE0) * 4096 + (b₁.toNat - 0x80) * 64 + c₂), 3)) h
  have hr := Option.some.inj hr
  rw [List.drop_one, List.tail_cons] at ht
  refine ⟨by unfold IsRune; omega, t, ?_⟩
  rw [ht, encodeRune, if_neg (by omega), if_neg (by omega), if_pos (by omega), toUInt8_eq (b := b) (by omega),
    toUInt8_eq (b := b₁) (by omega), toUInt8_eq (b := b₂) (by omega)]
  rfl

/-- A rune of four bytes. -/
theorem decodeRune_four (hb : 0xF0 ≤ b.toNat ∧ b.toNat ≤ 0xF4) (hlo : 0x80 ≤ lo) (hhi : hi ≤ 0xBF)
    (hmin : b.toNat = 0xF0 → 0x90 ≤ lo) (hmax : b.toNat = 0xF4 → hi ≤ 0x8F) (h : (match l with
      | b₁ :: _ => if lo ≤ b₁.toNat ∧ b₁.toNat ≤ hi then
        (match l.drop 1 with
          | b₂ :: _ => if 0x80 ≤ b₂.toNat ∧ b₂.toNat ≤ 0xBF then
            (match l.drop 2 with
              | b₃ :: _ => if 0x80 ≤ b₃.toNat ∧ b₃.toNat ≤ 0xBF then
                (some ((b.toNat - 0xF0) * 262144 + (b₁.toNat - 0x80) * 4096 + (b₂.toNat - 0x80) * 64 +
                  (b₃.toNat - 0x80)), 4) else (none, 1)
              | [] => (none, 1)) else (none, 1)
          | [] => (none, 1)) else (none, 1)
      | [] => (none, 1)).1 = some r) :
    IsRune r ∧ ∃ t, b :: l = encodeRune r ++ t := by
  obtain ⟨b₁, l, rfl, h₁, h₁', h⟩ := decodeRune_cont (k := fun c₁ => match l.drop 1 with
    | b₂ :: _ => if 0x80 ≤ b₂.toNat ∧ b₂.toNat ≤ 0xBF then (match l.drop 2 with
      | b₃ :: _ => if 0x80 ≤ b₃.toNat ∧ b₃.toNat ≤ 0xBF then
        (some ((b.toNat - 0xF0) * 262144 + c₁ * 4096 + (b₂.toNat - 0x80) * 64 + (b₃.toNat - 0x80)), 4) else (none, 1)
      | [] => (none, 1)) else (none, 1)
    | [] => (none, 1)) h
  obtain ⟨b₂, l', hl, h₂, h₂', h⟩ := decodeRune_cont (k := fun c₂ => match l.drop 1 with
    | b₃ :: _ => if 0x80 ≤ b₃.toNat ∧ b₃.toNat ≤ 0xBF then
      (some ((b.toNat - 0xF0) * 262144 + (b₁.toNat - 0x80) * 4096 + c₂ * 64 + (b₃.toNat - 0x80)), 4) else (none, 1)
    | [] => (none, 1)) h
  rw [List.drop_one, List.tail_cons] at hl
  subst hl
  obtain ⟨b₃, t, ht, h₃, h₃', hr⟩ := decodeRune_cont
    (k := fun c₃ => (some ((b.toNat - 0xF0) * 262144 + (b₁.toNat - 0x80) * 4096 + (b₂.toNat - 0x80) * 64 + c₃), 4)) h
  have hr := Option.some.inj hr
  rw [List.drop_one, List.tail_cons] at ht
  refine ⟨by unfold IsRune; omega, t, ?_⟩
  rw [ht, encodeRune, if_neg (by omega), if_neg (by omega), if_neg (by omega), toUInt8_eq (b := b) (by omega),
    toUInt8_eq (b := b₁) (by omega), toUInt8_eq (b := b₂) (by omega), toUInt8_eq (b := b₃) (by omega)]
  rfl

/-- What is decoded is a scalar value, and its encoding is what was read. -/
theorem decodeRune_some (h : (decodeRune l).1 = some r) : IsRune r ∧ ∃ t, l = encodeRune r ++ t := by
  cases l with
  | nil => cases h
  | cons b rest =>
    simp only [decodeRune] at h
    by_cases h₁ : b.toNat < 0x80
    · rw [if_pos h₁] at h
      cases h
      exact ⟨.inl (by omega), rest, by rw [encodeRune, if_pos h₁, toUInt8_eq rfl]; rfl⟩
    rw [if_neg h₁] at h
    by_cases h₂ : b.toNat < 0xC2
    · rw [if_pos h₂] at h
      cases h
    rw [if_neg h₂] at h
    by_cases h₃ : b.toNat ≤ 0xDF
    · rw [if_pos h₃] at h
      exact decodeRune_two ⟨not_lt.mp h₂, h₃⟩ h
    rw [if_neg h₃] at h
    by_cases h₄ : b.toNat = 0xE0
    · rw [if_pos h₄] at h
      exact decodeRune_three (by omega) (by omega) (by omega) (by omega) (by omega) h
    rw [if_neg h₄] at h
    by_cases h₅ : b.toNat = 0xED
    · rw [if_pos h₅] at h
      exact decodeRune_three (by omega) (by omega) (by omega) (by omega) (by omega) h
    rw [if_neg h₅] at h
    by_cases h₆ : b.toNat ≤ 0xEF
    · rw [if_pos h₆] at h
      exact decodeRune_three (by omega) (by omega) (by omega) (by omega) (by omega) h
    rw [if_neg h₆] at h
    by_cases h₇ : b.toNat = 0xF0
    · rw [if_pos h₇] at h
      exact decodeRune_four (by omega) (by omega) (by omega) (by omega) (by omega) h
    rw [if_neg h₇] at h
    by_cases h₈ : b.toNat ≤ 0xF3
    · rw [if_pos h₈] at h
      exact decodeRune_four (by omega) (by omega) (by omega) (by omega) (by omega) h
    rw [if_neg h₈] at h
    by_cases h₉ : b.toNat = 0xF4
    · rw [if_pos h₉] at h
      exact decodeRune_four (by omega) (by omega) (by omega) (by omega) (by omega) h
    rw [if_neg h₉] at h
    cases h

end Decode

theorem toUInt8_toNat (h : n < 256) : n.toUInt8.toNat = n := by
  simp only [Nat.toUInt8, UInt8.toNat_ofNat']
  exact Nat.mod_eq_of_lt h

theorem decodeRune_encodeRune {r : ℕ} (h : IsRune r) (rest : Bytes) :
    decodeRune (encodeRune r ++ rest) = (some r, (encodeRune r).length) := by
  unfold IsRune at h
  unfold encodeRune
  split
  · rename_i h1
    have := toUInt8_toNat (n := r) (by omega)
    simp [decodeRune, this, h1]
  split
  · have h0 := toUInt8_toNat (n := 0xC0 + r / 64) (by omega)
    have h1 := toUInt8_toNat (n := 0x80 + r % 64) (by omega)
    simp only [List.cons_append, List.nil_append, decodeRune, h0, h1]
    rw [if_neg (by omega), if_neg (by omega), if_pos (by omega), if_pos (by omega)]
    simp only [Prod.mk.injEq, Option.some.injEq]
    exact ⟨by omega, rfl⟩
  split
  · have h0 := toUInt8_toNat (n := 0xE0 + r / 4096) (by omega)
    have h1 := toUInt8_toNat (n := 0x80 + r / 64 % 64) (by omega)
    have h2 := toUInt8_toNat (n := 0x80 + r % 64) (by omega)
    simp only [List.cons_append, List.nil_append, decodeRune, h0, h1, h2, List.drop_succ_cons, List.drop_zero]
    rw [if_neg (by omega), if_neg (by omega), if_neg (by omega)]
    split_ifs <;> first | omega | (simp only [Prod.mk.injEq, Option.some.injEq]; exact ⟨by omega, rfl⟩)
  · have h0 := toUInt8_toNat (n := 0xF0 + r / 262144) (by omega)
    have h1 := toUInt8_toNat (n := 0x80 + r / 4096 % 64) (by omega)
    have h2 := toUInt8_toNat (n := 0x80 + r / 64 % 64) (by omega)
    have h3 := toUInt8_toNat (n := 0x80 + r % 64) (by omega)
    simp only [List.cons_append, List.nil_append, decodeRune, h0, h1, h2, h3, List.drop_succ_cons, List.drop_zero]
    rw [if_neg (by omega), if_neg (by omega), if_neg (by omega), if_neg (by omega), if_neg (by omega),
      if_neg (by omega)]
    split_ifs <;> first | omega | (simp only [Prod.mk.injEq, Option.some.injEq]; exact ⟨by omega, rfl⟩)

theorem runesFrom_isRune {skip r : ℕ} {s : Bytes} (h : some r ∈ runesFrom skip s) : IsRune r := by
  induction s generalizing skip with
  | nil => cases skip <;> cases h
  | cons b s ih =>
    cases skip with
    | succ n => exact ih h
    | zero =>
      rw [runesFrom, List.mem_cons] at h
      rcases h with h | h
      · exact (decodeRune_some h.symm).1
      · exact ih h

/-! ## Numbers -/

/-- `%d`. -/
def itoa : ℤ → Bytes
  | .ofNat n => (Nat.toDigits 10 n).map chr
  | .negSucc n => chr '-' :: (Nat.toDigits 10 (n + 1)).map chr

/-- Lower-case hexadecimal digits, most significant first, at least `width` of them. -/
def hex (width n : ℕ) : Bytes :=
  let ds := (Nat.toDigits 16 n).map chr
  List.replicate (width - ds.length) (chr '0') ++ ds

theorem chr_digit_inj {d : Char} (hc : c.isDigit = true) (hd : d.isDigit = true) (h : chr c = chr d) : c = d := by
  simp only [Char.isDigit, Bool.and_eq_true, decide_eq_true_eq] at hc hd
  have hc' : c.toNat < 256 := lt_of_le_of_lt (UInt32.le_iff_toNat_le.mp hc.2) (by decide)
  have hd' : d.toNat < 256 := lt_of_le_of_lt (UInt32.le_iff_toNat_le.mp hd.2) (by decide)
  have := congrArg UInt8.toNat h
  simp only [chr, Nat.toUInt8, UInt8.toNat_ofNat'] at this
  rw [Nat.mod_eq_of_lt hc', Nat.mod_eq_of_lt hd'] at this
  exact Char.toNat_inj.mp this

theorem map_chr_digits_inj {l m : List Char} (hl : ∀ c ∈ l, c.isDigit = true) (hm : ∀ c ∈ m, c.isDigit = true)
    (h : l.map chr = m.map chr) : l = m := by
  induction l generalizing m with
  | nil => cases m with
    | nil => rfl
    | cons d m => simp at h
  | cons c l ih => cases m with
    | nil => simp at h
    | cons d m =>
      simp only [List.map_cons, List.cons.injEq] at h
      rw [chr_digit_inj (hl c (by simp)) (hm d (by simp)) h.1,
        ih (fun x hx => hl x (by simp [hx])) (fun x hx => hm x (by simp [hx])) h.2]

theorem toDigits_isDigit (n : ℕ) : ∀ c ∈ Nat.toDigits 10 n, c.isDigit = true :=
  fun _ h => Nat.isDigit_of_mem_toDigits (by decide) (by decide) h

theorem digit_ne (hc : c.isDigit = true) (d : Char) (hd : d.toNat < 48) : chr c ≠ chr d := by
  simp only [Char.isDigit, Bool.and_eq_true, decide_eq_true_eq] at hc
  have h1 : 48 ≤ c.toNat := UInt32.le_iff_toNat_le.mp hc.1
  have h2 : c.toNat ≤ 57 := UInt32.le_iff_toNat_le.mp hc.2
  intro h
  have := congrArg UInt8.toNat h
  simp only [chr, Nat.toUInt8, UInt8.toNat_ofNat'] at this
  omega

/-- A number's text determines the number. -/
theorem itoa_injective : Function.Injective itoa := by
  have nat_inj : ∀ {m n : ℕ}, (Nat.toDigits 10 m).map chr = (Nat.toDigits 10 n).map chr → m = n := by
    intro m n h
    have := map_chr_digits_inj (toDigits_isDigit m) (toDigits_isDigit n) h
    rw [← Nat.ofDigitChars_ten_toDigits (n := m), this, Nat.ofDigitChars_ten_toDigits]
  have sign : ∀ m n : ℕ, (Nat.toDigits 10 m).map chr ≠ chr '-' :: (Nat.toDigits 10 n).map chr := by
    intro m n h
    cases hm : Nat.toDigits 10 m with
    | nil => exact Nat.toDigits_ne_nil hm
    | cons c cs =>
      rw [hm] at h
      exact digit_ne (toDigits_isDigit m c (by simp [hm])) '-' (by decide) (List.cons.inj h).1
  intro a b h
  cases a with
  | ofNat m => cases b with
    | ofNat n => exact congrArg Int.ofNat (nat_inj h)
    | negSucc n => exact absurd h (sign m (n + 1))
  | negSucc m => cases b with
    | ofNat n => exact absurd h.symm (sign n (m + 1))
    | negSucc n =>
      have := nat_inj (List.cons.inj h).2
      exact congrArg Int.negSucc (by omega)

/-- A number's text has no separator. -/
theorem itoa_no_slash (a : ℤ) : chr '/' ∉ itoa a := by
  have digits : ∀ n : ℕ, chr '/' ∉ (Nat.toDigits 10 n).map chr := by
    intro n h
    obtain ⟨c, hc, he⟩ := List.mem_map.mp h
    exact digit_ne (toDigits_isDigit n c hc) '/' (by decide) he
  cases a with
  | ofNat n => exact digits n
  | negSucc n =>
    rw [itoa, List.mem_cons]
    rintro (h | h)
    · exact absurd h (by decide)
    · exact digits _ h

/-! ## Case folding and order -/

/-- SQLite's `NOCASE` folds the ASCII letters only. -/
def foldCase (b : UInt8) : UInt8 := if 0x41 ≤ b.toNat ∧ b.toNat ≤ 0x5A then b + 0x20 else b

def eqNoCase (a b : Bytes) : Bool := a.map foldCase == b.map foldCase

/-- `slices.Sort`. -/
def sortStrings (l : List Bytes) : List Bytes := l.insertionSort fun a b => a ≤ b

/-- `slices.Sort` then `slices.Compact`: the set of a list of strings. -/
def sortedSet (l : List Bytes) : List Bytes := (l.insertionSort fun a b => a ≤ b).dedup

@[simp] theorem mem_sortedSet {l : List Bytes} {b : Bytes} : b ∈ sortedSet l ↔ b ∈ l := by
  rw [sortedSet, List.mem_dedup, List.mem_insertionSort]

/-- The set of a list is sorted already. -/
theorem sortStrings_sortedSet (l : List Bytes) : sortStrings (sortedSet l) = sortedSet l := by
  have hsort : (sortStrings l).Pairwise fun a b => a ≤ b := List.pairwise_insertionSort (fun a b : Bytes => a ≤ b) l
  have hset : (sortedSet l).Pairwise fun a b => a ≤ b := hsort.sublist (List.dedup_sublist _)
  exact hset.insertionSort_eq

@[simp] theorem sortedSet_sortedSet (l : List Bytes) : sortedSet (sortedSet l) = sortedSet l := by
  rw [sortedSet, ← sortStrings, sortStrings_sortedSet]
  exact (List.nodup_dedup _).dedup

/-- Sorting tells a list from its set when it has a repetition. -/
theorem sortStrings_sortedSet_iff {l : List Bytes} : sortStrings (sortedSet l) = sortStrings l ↔ l.Nodup := by
  rw [sortStrings_sortedSet, sortedSet, ← sortStrings, List.dedup_eq_self]
  exact (List.perm_insertionSort _ l).nodup_iff

end Messq

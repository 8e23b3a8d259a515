import Messq.Text

/-! # Hexadecimal

`hex.EncodeToString` and the decoding loop, under a table of digit values that decides which letters are digits. Under
any table that knows the digits of the encoder, decoding undoes encoding (`decodePairs_encodeToString`); under the table
without the upper-case letters a text decodes exactly if it is an encoding (`decodePairs_lower_iff`). -/

namespace Messq

variable {bs s : Bytes} {c : UInt8} {value : UInt8 → UInt8} {n : ℕ}

def hextable : Bytes := str "0123456789abcdef"

/-- The digit of a value below sixteen. -/
def hexChar (n : ℕ) : UInt8 := hextable.getD n 0

/-- `hex.EncodeToString`. -/
def encodeToString (bs : Bytes) : Bytes := bs.flatMap fun b => [hexChar (b.toNat / 16), hexChar (b.toNat % 16)]

/-- The byte of two digits, `hi<<4 | lo`. -/
def hexByte (hi lo : UInt8) : UInt8 := hi <<< (4 : UInt8) ||| lo

/-- Decoding two digits at a time; a table gives `0xff` for what is no digit. -/
def decodePairs (value : UInt8 → UInt8) : Bytes → Option Bytes
  | [] => some []
  | [_] => none
  | p :: q :: rest =>
    if value p > 0xf ∨ value q > 0xf then none
    else (decodePairs value rest).map (hexByte (value p) (value q) :: ·)

/-- `hexValue`: one lowercase hex digit. -/
def hexValue (c : UInt8) : UInt8 :=
  if chr '0' ≤ c ∧ c ≤ chr '9' then c - chr '0'
  else if chr 'a' ≤ c ∧ c ≤ chr 'f' then c - chr 'a' + 10
  else 0xff

/-- A lowercase hexadecimal digit. -/
def LowerHex (c : UInt8) : Prop := (chr '0' ≤ c ∧ c ≤ chr '9') ∨ (chr 'a' ≤ c ∧ c ≤ chr 'f')

instance (c : UInt8) : Decidable (LowerHex c) := inferInstanceAs (Decidable (_ ∨ _))

/-! ## Digits -/

/-- The tables, entry by entry. -/
theorem hex_tables :
    (∀ n < 16, hexValue (hexChar n) = n.toUInt8 ∧ LowerHex (hexChar n) ∧ ¬ n.toUInt8 > 0xf ∧
      ∀ m < 16, (hexByte n.toUInt8 m.toUInt8).toNat / 16 = n ∧ (hexByte n.toUInt8 m.toUInt8).toNat % 16 = m) ∧
    ∀ n < 256, (hexValue n.toUInt8 ≤ 0xf ↔ LowerHex n.toUInt8) ∧
      (hexValue n.toUInt8 ≤ 0xf → hexChar (hexValue n.toUInt8).toNat = n.toUInt8) ∧
      hexByte (n / 16).toUInt8 (n % 16).toUInt8 = n.toUInt8 := by
  decide +kernel

theorem hexValue_hexChar (h : n < 16) : hexValue (hexChar n) = n.toUInt8 := (hex_tables.1 n h).1

theorem hexValue_le_iff : hexValue c ≤ 0xf ↔ LowerHex c :=
  toUInt8_eq (b := c) rfl ▸ (hex_tables.2 c.toNat c.toNat_lt).1

/-- A digit is the one of its value. -/
theorem hexChar_hexValue (h : hexValue c ≤ 0xf) : hexChar (hexValue c).toNat = c := by
  have hc := (hex_tables.2 c.toNat c.toNat_lt).2.1
  rw [toUInt8_eq (b := c) rfl] at hc
  exact hc h

theorem halves_of_digits {a b : UInt8} (ha : a ≤ 0xf) (hb : b ≤ 0xf) :
    (hexByte a b).toNat / 16 = a.toNat ∧ (hexByte a b).toNat % 16 = b.toNat := by
  have h := (hex_tables.1 a.toNat (Nat.lt_succ_of_le ha)).2.2.2 b.toNat (Nat.lt_succ_of_le hb)
  rwa [toUInt8_eq (b := a) rfl, toUInt8_eq (b := b) rfl] at h

theorem digits_of_halves (b : UInt8) : hexByte (b.toNat / 16).toUInt8 (b.toNat % 16).toUInt8 = b := by
  rw [(hex_tables.2 b.toNat b.toNat_lt).2.2, toUInt8_eq rfl]

/-! ## Decoding and encoding -/

theorem encodeToString_cons (b : UInt8) (bs : Bytes) :
    encodeToString (b :: bs) = hexChar (b.toNat / 16) :: hexChar (b.toNat % 16) :: encodeToString bs := rfl

theorem encodeToString_zero (n : ℕ) : encodeToString (List.replicate n 0) = List.replicate (2 * n) (chr '0') := by
  induction n with
  | zero => rfl
  | succ n ih =>
    rw [List.replicate_succ, encodeToString_cons, ih, Nat.mul_succ, List.replicate_succ, List.replicate_succ]
    rfl

theorem length_encodeToString (bs : Bytes) : (encodeToString bs).length = 2 * bs.length := by
  induction bs with
  | nil => rfl
  | cons b bs ih =>
    rw [encodeToString_cons, List.length_cons, List.length_cons, ih, List.length_cons]
    omega

/-- Decoding undoes encoding. -/
theorem decodePairs_encodeToString (h : ∀ n < 16, value (hexChar n) = n.toUInt8) (bs : Bytes) :
    decodePairs value (encodeToString bs) = some bs := by
  induction bs with
  | nil => rfl
  | cons b bs ih =>
    have hhi : b.toNat / 16 < 16 := Nat.div_lt_of_lt_mul b.toNat_lt
    have hlo : b.toNat % 16 < 16 := Nat.mod_lt _ (by decide)
    rw [encodeToString_cons, decodePairs, h _ hhi, h _ hlo, if_neg, ih, digits_of_halves, Option.map_some]
    rintro (hgt | hgt)
    · exact (hex_tables.1 _ hhi).2.2.1 hgt
    · exact (hex_tables.1 _ hlo).2.2.1 hgt

theorem length_of_decodePairs (h : decodePairs value s = some bs) : s.length = 2 * bs.length := by
  induction s using decodePairs.induct value generalizing bs with
  | case1 => cases h; rfl
  | case2 => cases h
  | case3 p q rest hbad =>
    rw [decodePairs, if_pos hbad] at h
    cases h
  | case4 p q rest hok ih =>
    rw [decodePairs, if_neg hok] at h
    obtain ⟨tail, ht, rfl⟩ := Option.map_eq_some_iff.mp h
    rw [List.length_cons, List.length_cons, ih ht, List.length_cons]
    omega

/-- With lower-case digits only, a decoded text is an encoding. -/
theorem encodeToString_of_decodePairs (h : decodePairs hexValue s = some bs) : encodeToString bs = s := by
  induction s using decodePairs.induct hexValue generalizing bs with
  | case1 => cases h; rfl
  | case2 => cases h
  | case3 p q rest hbad =>
    rw [decodePairs, if_pos hbad] at h
    cases h
  | case4 p q rest hok ih =>
    rw [decodePairs, if_neg hok] at h
    obtain ⟨tail, ht, rfl⟩ := Option.map_eq_some_iff.mp h
    obtain ⟨hp, hq⟩ := not_or.mp hok
    rw [gt_iff_lt, UInt8.not_lt] at hp hq
    obtain ⟨hhi, hlo⟩ := halves_of_digits hp hq
    rw [encodeToString_cons, hhi, hlo, hexChar_hexValue hp, hexChar_hexValue hq, ih ht]

theorem decodePairs_lower_iff : decodePairs hexValue s = some bs ↔ encodeToString bs = s := by
  constructor
  · exact encodeToString_of_decodePairs
  · rintro rfl
    exact decodePairs_encodeToString (fun _ => hexValue_hexChar) bs

theorem encodeToString_injective : Function.Injective encodeToString := fun a b h => by
  have ha := decodePairs_lower_iff.mpr h
  rw [decodePairs_encodeToString fun _ => hexValue_hexChar] at ha
  exact (Option.some.inj ha).symm

/-- A text of lower-case digits decodes if there is an even number of them. -/
theorem decodePairs_isSome (hlen : s.length = 2 * n) (h : ∀ c ∈ s, LowerHex c) :
    ∃ bs, decodePairs hexValue s = some bs := by
  induction s using decodePairs.induct hexValue generalizing n with
  | case1 => exact ⟨[], rfl⟩
  | case2 c =>
    rw [List.length_singleton] at hlen
    omega
  | case3 p q rest hbad =>
    rcases hbad with hp | hq
    · exact absurd hp (UInt8.not_lt.mpr (hexValue_le_iff.mpr (h p (by simp))))
    · exact absurd hq (UInt8.not_lt.mpr (hexValue_le_iff.mpr (h q (by simp))))
  | case4 p q rest hok ih =>
    rw [List.length_cons, List.length_cons] at hlen
    obtain ⟨bs, hbs⟩ := ih (n := n - 1) (by omega) fun c hc => h c (by simp [hc])
    exact ⟨_, by rw [decodePairs, if_neg hok, hbs, Option.map_some]⟩

theorem lowerHex_encodeToString : ∀ c ∈ encodeToString bs, LowerHex c := by
  intro c hc
  obtain ⟨b, -, hcb⟩ := List.mem_flatMap.mp hc
  rcases List.mem_pair.mp hcb with rfl | rfl
  · exact (hex_tables.1 _ (Nat.div_lt_of_lt_mul b.toNat_lt)).2.1
  · exact (hex_tables.1 _ (Nat.mod_lt _ (by decide))).2.1

end Messq

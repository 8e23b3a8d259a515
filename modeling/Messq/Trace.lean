import Messq.Hex

/-! # Trace ids

`ParseTraceparent` reads a W3C `traceparent` at fixed offsets. An index or a slice out of range panics, which the model
shows as `none`. The parser never panics, and it accepts exactly the well-formed headers, with their fields decoded
(`parseTraceparent_spec`). -/

namespace Messq

variable {s v : Bytes} {d₀ d₁ d₂ : UInt8} {n i : ℕ}

abbrev TraceID := List.Vector UInt8 16

abbrev SpanID := List.Vector UInt8 8

/-- `IsZero` of both id types. -/
def IsZero {n : ℕ} (t : List.Vector UInt8 n) : Prop := t = List.Vector.replicate n 0

instance {n : ℕ} (t : List.Vector UInt8 n) : Decidable (IsZero t) := inferInstanceAs (Decidable (_ = _))

/-- `v[i]`. -/
def byteAt (v : Bytes) (i : ℕ) : Option UInt8 := v[i]?

/-- `v[lo:hi]`. -/
def slice (v : Bytes) (lo hi : ℕ) : Option Bytes :=
  if lo ≤ hi ∧ hi ≤ v.length then some ((v.drop lo).take (hi - lo)) else none

/-- The loop of `decodeLowerHex` from index `i`, with `n` bytes of the destination to go. -/
def decodeLowerHexFrom (s : Bytes) : ℕ → (n : ℕ) → Option (Option (List.Vector UInt8 n))
  | _, 0 => some (some .nil)
  | i, n + 1 => do
    let hi := hexValue (← byteAt s (2 * i))
    let lo := hexValue (← byteAt s (2 * i + 1))
    if hi > 0xf ∨ lo > 0xf then return none
    let rest ← decodeLowerHexFrom s (i + 1) n
    return rest.map (.cons (hexByte hi lo))

/-- `decodeLowerHex` into a destination of `n` bytes; the inner `none` is its refusal. -/
def decodeLowerHex (s : Bytes) (n : ℕ) : Option (Option (List.Vector UInt8 n)) :=
  if s.length ≠ 2 * n then some none else decodeLowerHexFrom s 0 n

def traceparentLen : ℕ := 55
def versionEnd : ℕ := 2
def traceStart : ℕ := 3
def traceEnd : ℕ := 35
def parentStart : ℕ := 36
def parentEnd : ℕ := 52
def flagsStart : ℕ := 53

/-- What `ParseTraceparent` returns. -/
structure Traceparent where
  tid : TraceID
  parent : SpanID
  sampled : Bool
  ok : Bool
  deriving DecidableEq

def Traceparent.refused : Traceparent := ⟨.replicate 16 0, .replicate 8 0, false, false⟩

/-- The `switch` on the version: only a later version may go on after byte 55. -/
def tailAllowed (version : UInt8) (v : Bytes) : Option Bool :=
  if version = 0 then some (v.length = traceparentLen)
  else if v.length > traceparentLen then do
    return (← byteAt v traceparentLen) = chr '-' ∧ v.length ≠ traceparentLen + 1
  else some true

/-- `ParseTraceparent`. -/
def parseTraceparent (v : Bytes) : Option Traceparent := do
  if v.length < traceparentLen then return .refused
  if (← byteAt v versionEnd) ≠ chr '-' then return .refused
  if (← byteAt v traceEnd) ≠ chr '-' then return .refused
  if (← byteAt v parentEnd) ≠ chr '-' then return .refused
  let some version ← decodeLowerHex (← slice v 0 versionEnd) 1 | return .refused
  if version.head = 0xff then return .refused
  if !(← tailAllowed version.head v) then return .refused
  let some tid ← decodeLowerHex (← slice v traceStart traceEnd) 16 | return .refused
  if IsZero tid then return .refused
  let some parent ← decodeLowerHex (← slice v parentStart parentEnd) 8 | return .refused
  if IsZero parent then return .refused
  let some flags ← decodeLowerHex (← slice v flagsStart traceparentLen) 1 | return .refused
  return ⟨tid, parent, flags.head &&& 0x01 != 0, true⟩

/-! ## Reading -/

section Read

variable {a b c : Bytes} {d : UInt8} {lo hi : ℕ}

theorem byteAt_of_eq (h : v = a ++ d :: c) (hi : a.length = i) : byteAt v i = some d := by
  subst hi h
  rw [byteAt, List.getElem?_append_right le_rfl, Nat.sub_self, List.getElem?_cons_zero]

theorem slice_of_eq (h : v = a ++ (b ++ c)) (hlo : a.length = lo) (hhi : lo + b.length = hi) :
    slice v lo hi = some b := by
  subst hlo hhi h
  rw [slice, if_pos (by simp), List.drop_left, Nat.add_sub_cancel_left, List.take_left]

end Read

/-- The loop reads within its text, and decodes as `decodePairs` does. -/
theorem decodeLowerHexFrom_eq (h : s.length = 2 * (i + n)) :
    ∃ r, decodeLowerHexFrom s i n = some r ∧ r.map List.Vector.toList = decodePairs hexValue (s.drop (2 * i)) := by
  induction n generalizing i with
  | zero => exact ⟨some .nil, rfl, by rw [List.drop_of_length_le (by omega)]; rfl⟩
  | succ n ih =>
    obtain ⟨p, q, hpq⟩ : ∃ p q, s.drop (2 * i) = p :: q :: s.drop (2 * (i + 1)) :=
      ⟨_, _, by rw [List.drop_eq_getElem_cons (by omega), List.drop_eq_getElem_cons (by omega)]; rfl⟩
    have hs : s = s.take (2 * i) ++ p :: q :: s.drop (2 * (i + 1)) := by rw [← hpq, List.take_append_drop]
    have hp : byteAt s (2 * i) = some p := byteAt_of_eq hs (by rw [List.length_take]; omega)
    have hq : byteAt s (2 * i + 1) = some q := by
      refine byteAt_of_eq (a := s.take (2 * i) ++ [p]) (by rw [List.append_assoc]; exact hs) ?_
      rw [List.length_append, List.length_take, List.length_singleton]
      omega
    obtain ⟨r, hr, hdec⟩ := ih (i := i + 1) (by omega)
    rw [hpq, decodeLowerHexFrom, hp, hq, hr, decodePairs, ← hdec]
    by_cases hbad : hexValue p > 0xf ∨ hexValue q > 0xf
    · exact ⟨none, if_pos hbad, (if_pos hbad).symm⟩
    · refine ⟨r.map (.cons (hexByte (hexValue p) (hexValue q))), if_neg hbad, ?_⟩
      rw [if_neg hbad, Option.map_map, Option.map_map]
      congr 1

/-- `decodeLowerHex` never panics, and accepts the encodings of its destination. -/
theorem decodeLowerHex_spec (s : Bytes) (n : ℕ) :
    ∃ r, decodeLowerHex s n = some r ∧ ∀ t, r = some t ↔ encodeToString t.toList = s := by
  by_cases hlen : s.length = 2 * n
  · obtain ⟨r, hr, hdec⟩ := decodeLowerHexFrom_eq (s := s) (i := 0) (n := n) (by omega)
    refine ⟨r, by rw [decodeLowerHex, if_neg (not_not.mpr hlen), hr], fun t => ?_⟩
    rw [Nat.mul_zero, List.drop_zero] at hdec
    rw [← decodePairs_lower_iff, ← hdec, Option.map_eq_some_iff]
    constructor
    · rintro rfl
      exact ⟨t, rfl, rfl⟩
    · rintro ⟨t', rfl, ht⟩
      rw [List.Vector.toList_injective ht]
  · refine ⟨none, if_pos hlen, fun t => iff_of_false (Option.some_ne_none t).symm ?_⟩
    rintro rfl
    rw [length_encodeToString, t.toList_length] at hlen
    exact hlen rfl

theorem isZero_iff {t : List.Vector UInt8 n} :
    IsZero t ↔ encodeToString t.toList = List.replicate (2 * n) (chr '0') := by
  rw [← encodeToString_zero, encodeToString_injective.eq_iff, IsZero, ← List.Vector.toList_injective.eq_iff]
  rfl

/-! ## Headers -/

/-- A header cut at its dashes. -/
structure Fields where
  version : Bytes
  traceId : Bytes
  parentId : Bytes
  flags : Bytes
  tail : Bytes

variable {f : Fields}

def Fields.text (f : Fields) : Bytes :=
  f.version ++ chr '-' :: (f.traceId ++ chr '-' :: (f.parentId ++ chr '-' :: (f.flags ++ f.tail)))

/-- A number of lowercase hexadecimal digits. -/
def HexField (n : ℕ) (s : Bytes) : Prop := s.length = n ∧ ∀ c ∈ s, LowerHex c

/-- What the W3C specification asks of the fields. -/
structure Fields.Valid (f : Fields) : Prop where
  version : HexField 2 f.version
  known : f.version ≠ str "ff"
  traceId : HexField 32 f.traceId
  traced : f.traceId ≠ List.replicate 32 (chr '0')
  parentId : HexField 16 f.parentId
  spanned : f.parentId ≠ List.replicate 16 (chr '0')
  flags : HexField 2 f.flags
  tail : f.tail = [] ∨ f.version ≠ str "00" ∧ ∃ c rest, f.tail = chr '-' :: c :: rest

theorem HexField.encoded (h : HexField (2 * n) s) : ∃ t : List.Vector UInt8 n, encodeToString t.toList = s := by
  obtain ⟨bs, hbs⟩ := decodePairs_isSome h.1 h.2
  have hlen := length_of_decodePairs hbs
  exact ⟨⟨bs, by have := h.1; omega⟩, decodePairs_lower_iff.mp hbs⟩

/-- What is not decoded is no field of digits. -/
theorem not_hexField (h : ∀ t : List.Vector UInt8 n, none = some t ↔ encodeToString t.toList = s) :
    ¬ HexField (2 * n) s := by
  intro hs
  obtain ⟨t, ht⟩ := hs.encoded
  cases (h t).mpr ht

theorem toList_one (t : List.Vector UInt8 1) : t.toList = [t.head] := by
  rw [← t.cons_head_tail, List.Vector.toList_cons, t.tail.eq_nil]
  rfl

theorem hexField_encodeToString (t : List.Vector UInt8 n) : HexField (2 * n) (encodeToString t.toList) :=
  ⟨by rw [length_encodeToString, t.toList_length], lowerHex_encodeToString⟩

/-- The fields, with any bytes for the dashes. -/
def Fields.joined (f : Fields) (d₀ d₁ d₂ : UInt8) : Bytes :=
  f.version ++ d₀ :: (f.traceId ++ d₁ :: (f.parentId ++ d₂ :: (f.flags ++ f.tail)))

/-- Fields of the fixed lengths. -/
structure Fields.Sized (f : Fields) : Prop where
  version : f.version.length = 2
  traceId : f.traceId.length = 32
  parentId : f.parentId.length = 16
  flags : f.flags.length = 2

/-- A long enough header has its fields at the fixed offsets. -/
theorem exists_fields (h : traceparentLen ≤ v.length) : ∃ f d₀ d₁ d₂, f.Sized ∧ Fields.joined f d₀ d₁ d₂ = v := by
  have hcut : ∀ {w : Bytes} {n : ℕ}, n < w.length → ∃ a d b, w = a ++ d :: b ∧ a.length = n := fun {w n} hn =>
    ⟨w.take n, _, w.drop (n + 1), by rw [← List.drop_eq_getElem_cons hn, List.take_append_drop],
      by rw [List.length_take]; omega⟩
  rw [traceparentLen] at h
  obtain ⟨version, d₀, v₁, rfl, hversion⟩ := hcut (w := v) (n := 2) (by omega)
  simp only [List.length_append, List.length_cons] at h
  obtain ⟨traceId, d₁, v₂, rfl, htrace⟩ := hcut (w := v₁) (n := 32) (by omega)
  simp only [List.length_append, List.length_cons] at h
  obtain ⟨parentId, d₂, v₃, rfl, hparent⟩ := hcut (w := v₂) (n := 16) (by omega)
  simp only [List.length_append, List.length_cons] at h
  refine ⟨⟨version, traceId, parentId, v₃.take 2, v₃.drop 2⟩, d₀, d₁, d₂, ⟨hversion, htrace, hparent, ?_⟩, ?_⟩
  · rw [List.length_take]
    omega
  · rw [Fields.joined, List.take_append_drop]

/-- What the parser reads of such a header. -/
structure Layout (v : Bytes) (f : Fields) (d₀ d₁ d₂ : UInt8) : Prop where
  dash₀ : byteAt v versionEnd = some d₀
  dash₁ : byteAt v traceEnd = some d₁
  dash₂ : byteAt v parentEnd = some d₂
  version : slice v 0 versionEnd = some f.version
  traceId : slice v traceStart traceEnd = some f.traceId
  parentId : slice v parentStart parentEnd = some f.parentId
  flags : slice v flagsStart traceparentLen = some f.flags
  length : v.length = traceparentLen + f.tail.length
  next : byteAt v traceparentLen = f.tail.head?

theorem Fields.Sized.layout (h : f.Sized) (d₀ d₁ d₂ : UInt8) : Layout (f.joined d₀ d₁ d₂) f d₀ d₁ d₂ := by
  obtain ⟨hversion, htrace, hparent, hflags⟩ := h
  -- the header up to its third and fourth field, and up to its tail
  have htraced : (f.version ++ d₀ :: f.traceId).length = traceEnd := by simp [hversion, htrace, traceEnd]
  have hspanned : (f.version ++ d₀ :: (f.traceId ++ d₁ :: f.parentId)).length = parentEnd := by
    simp [hversion, htrace, hparent, parentEnd]
  have hflagged : (f.version ++ d₀ :: (f.traceId ++ d₁ :: (f.parentId ++ d₂ :: f.flags))).length = traceparentLen := by
    simp [hversion, htrace, hparent, hflags, traceparentLen]
  have hjoined : f.joined d₀ d₁ d₂ =
      (f.version ++ d₀ :: (f.traceId ++ d₁ :: (f.parentId ++ d₂ :: f.flags))) ++ f.tail := by simp [Fields.joined]
  refine ⟨byteAt_of_eq rfl hversion, byteAt_of_eq (by simp [Fields.joined]; rfl) htraced,
    byteAt_of_eq (by simp [Fields.joined]; rfl) hspanned, ?_, ?_, ?_, ?_, ?_, ?_⟩
  · exact slice_of_eq (a := []) rfl rfl (by simp [hversion, versionEnd])
  · exact slice_of_eq (a := f.version ++ [d₀]) (by simp [Fields.joined]; rfl) (by simp [hversion, traceStart])
      (by simp [htrace, traceStart, traceEnd])
  · refine slice_of_eq (a := f.version ++ d₀ :: (f.traceId ++ [d₁])) (by simp [Fields.joined]; rfl) ?_ ?_
    · simp [hversion, htrace, parentStart]
    · simp [hparent, parentStart, parentEnd]
  · refine slice_of_eq (a := f.version ++ d₀ :: (f.traceId ++ d₁ :: (f.parentId ++ [d₂]))) (c := f.tail) ?_ ?_ ?_
    · simp [Fields.joined]
    · simp [hversion, htrace, hparent, flagsStart]
    · simp [hflags, flagsStart, traceparentLen]
  · rw [hjoined, List.length_append, hflagged]
  · rw [hjoined, byteAt, List.getElem?_append_right hflagged.le, hflagged, Nat.sub_self, List.head?_eq_getElem?]

/-! ## The verdict -/

/-- The parser answers; it accepts exactly if `P`, and then with a result as `Q` says. -/
def Judges (x : Option Traceparent) (P : Prop) (Q : Traceparent → Prop) : Prop :=
  ∃ r, x = some r ∧ (r.ok = true ↔ P) ∧ (r.ok = true → Q r)

section Judges

variable {P : Prop} {Q : Traceparent → Prop}

theorem judges_refused (h : ¬ P) : Judges (some .refused) P Q :=
  ⟨_, rfl, iff_of_false Bool.false_ne_true h, fun hok => absurd hok Bool.false_ne_true⟩

theorem judges_ite {c : Prop} [Decidable c] {x : Option Traceparent} (hc : c → ¬ P) (h : ¬ c → Judges x P Q) :
    Judges (if c then pure .refused else x) P Q := by
  by_cases hcase : c
  · rw [if_pos hcase]
    exact judges_refused (hc hcase)
  · rw [if_neg hcase]
    exact h hcase

end Judges

/-- The `switch` reads within the header, and lets pass what the tail of a valid header may be. -/
theorem tailAllowed_spec (hr : Layout v f d₀ d₁ d₂) (b : UInt8) :
    ∃ r, tailAllowed b v = some r ∧ (r = true ↔ f.tail = [] ∨ b ≠ 0 ∧ ∃ c rest, f.tail = chr '-' :: c :: rest) := by
  have hlen := hr.length
  have hnext := hr.next
  rw [tailAllowed]
  by_cases hb : b = 0
  · refine ⟨_, if_pos hb, ?_⟩
    rw [decide_eq_true_iff, hlen, Nat.add_eq_left, List.length_eq_zero_iff]
    simp [hb]
  rw [if_neg hb]
  cases htail : f.tail with
  | nil =>
    rw [htail, List.length_nil, Nat.add_zero] at hlen
    exact ⟨true, if_neg (by omega), by simp⟩
  | cons d rest =>
    rw [htail, List.length_cons] at hlen
    rw [htail, List.head?_cons] at hnext
    refine ⟨_, by rw [if_pos (by omega), hnext]; rfl, ?_⟩
    rw [decide_eq_true_iff, hlen]
    cases rest with
    | nil => simp
    | cons c rest => simp [hb]

/-- What is returned of an accepted header. -/
structure Decoded (f : Fields) (r : Traceparent) : Prop where
  tid : encodeToString r.tid.toList = f.traceId
  parent : encodeToString r.parent.toList = f.parentId
  sampled : ∃ flags : UInt8, encodeToString [flags] = f.flags ∧ r.sampled = (flags &&& 0x01 != 0)

theorem judges_parse (hr : Layout v f d₀ d₁ d₂) :
    Judges (parseTraceparent v) (d₀ = chr '-' ∧ d₁ = chr '-' ∧ d₂ = chr '-' ∧ f.Valid) (Decoded f) := by
  have hlen := hr.length
  rw [parseTraceparent, if_neg (by omega), hr.dash₀, hr.dash₁, hr.dash₂, hr.version, hr.traceId, hr.parentId, hr.flags]
  simp only [Option.bind_eq_bind, Option.bind_some]
  refine judges_ite (fun h hP => h hP.1) fun hd₀ => judges_ite (fun h hP => h hP.2.1) fun hd₁ =>
    judges_ite (fun h hP => h hP.2.2.1) fun hd₂ => ?_
  rw [not_not] at hd₀ hd₁ hd₂
  obtain ⟨version, hversion, hvspec⟩ := decodeLowerHex_spec f.version 1
  rw [hversion, Option.bind_some]
  cases version with
  | none => exact judges_refused fun hP => not_hexField hvspec hP.2.2.2.version
  | some version =>
  have hv : encodeToString [version.head] = f.version := toList_one version ▸ (hvspec version).mp rfl
  have hff : version.head = 0xff ↔ f.version = str "ff" := by
    rw [← hv, show str "ff" = encodeToString [0xff] from rfl, encodeToString_injective.eq_iff, List.singleton_inj]
  have hzero : version.head = 0 ↔ f.version = str "00" := by
    rw [← hv, show str "00" = encodeToString [0] from rfl, encodeToString_injective.eq_iff, List.singleton_inj]
  refine judges_ite (fun h hP => hP.2.2.2.known (hff.mp h)) fun hknown => ?_
  obtain ⟨allowed, hallowed, htail⟩ := tailAllowed_spec hr version.head
  rw [hallowed, Option.bind_some]
  rw [ne_eq, hzero] at htail
  refine judges_ite (fun h hP => ?_) fun htail' => ?_
  · rw [htail.mpr hP.2.2.2.tail] at h
    cases h
  obtain ⟨tid, htid, htspec⟩ := decodeLowerHex_spec f.traceId 16
  rw [htid, Option.bind_some]
  cases tid with
  | none => exact judges_refused fun hP => not_hexField htspec hP.2.2.2.traceId
  | some tid =>
  have ht := (htspec tid).mp rfl
  refine judges_ite (fun h hP => hP.2.2.2.traced (ht.symm.trans (isZero_iff.mp h))) fun htraced => ?_
  obtain ⟨parent, hparent, hpspec⟩ := decodeLowerHex_spec f.parentId 8
  rw [hparent, Option.bind_some]
  cases parent with
  | none => exact judges_refused fun hP => not_hexField hpspec hP.2.2.2.parentId
  | some parent =>
  have hp := (hpspec parent).mp rfl
  refine judges_ite (fun h hP => hP.2.2.2.spanned (hp.symm.trans (isZero_iff.mp h))) fun hspanned => ?_
  obtain ⟨flags, hflags, hfspec⟩ := decodeLowerHex_spec f.flags 1
  rw [hflags, Option.bind_some]
  cases flags with
  | none => exact judges_refused fun hP => not_hexField hfspec hP.2.2.2.flags
  | some flags =>
  have hf := (hfspec flags).mp rfl
  have hvalid : f.Valid :=
    { version := (hvspec version).mp rfl ▸ hexField_encodeToString version
      known := fun h => hknown (hff.mpr h)
      traceId := ht ▸ hexField_encodeToString tid
      traced := fun h => htraced (isZero_iff.mpr (ht.trans h))
      parentId := hp ▸ hexField_encodeToString parent
      spanned := fun h => hspanned (isZero_iff.mpr (hp.trans h))
      flags := hf ▸ hexField_encodeToString flags
      tail := htail.mp (by simpa using htail') }
  exact ⟨_, rfl, iff_of_true rfl ⟨hd₀, hd₁, hd₂, hvalid⟩, fun _ => ⟨ht, hp, flags.head, toList_one flags ▸ hf, rfl⟩⟩

theorem Fields.Valid.sized (h : f.Valid) : f.Sized := ⟨h.version.1, h.traceId.1, h.parentId.1, h.flags.1⟩

/-- A valid header is accepted, and decoded. -/
theorem parseTraceparent_text (h : f.Valid) : ∃ r, parseTraceparent f.text = some r ∧ r.ok = true ∧ Decoded f r := by
  obtain ⟨r, hr, hok, hdec⟩ := judges_parse (h.sized.layout (chr '-') (chr '-') (chr '-'))
  have hr' := hok.mpr ⟨rfl, rfl, rfl, h⟩
  exact ⟨r, hr, hr', hdec hr'⟩

/-- The parser answers, and accepts only valid headers. -/
theorem parseTraceparent_accepts (v : Bytes) :
    ∃ r, parseTraceparent v = some r ∧ (r.ok = true → ∃ f : Fields, f.Valid ∧ f.text = v) := by
  by_cases hlen : v.length < traceparentLen
  · exact ⟨.refused, by rw [parseTraceparent, if_pos hlen]; rfl, fun hok => absurd hok Bool.false_ne_true⟩
  · obtain ⟨f, d₀, d₁, d₂, hsized, rfl⟩ := exists_fields (not_lt.mp hlen)
    obtain ⟨r, hr, hok, -⟩ := judges_parse (hsized.layout d₀ d₁ d₂)
    refine ⟨r, hr, fun h => ?_⟩
    obtain ⟨rfl, rfl, rfl, hvalid⟩ := hok.mp h
    exact ⟨f, hvalid, rfl⟩

/-- **Trace headers.** The parser reads no byte outside the header. It accepts exactly the headers that are the text of
valid fields, and returns those fields decoded. -/
theorem parseTraceparent_spec (v : Bytes) : ∃ r, parseTraceparent v = some r ∧
    (r.ok = true ↔ ∃ f : Fields, f.Valid ∧ f.text = v) ∧ ∀ f : Fields, f.Valid → f.text = v → Decoded f r := by
  obtain ⟨r, hr, hok⟩ := parseTraceparent_accepts v
  have hvalid : ∀ f : Fields, f.Valid → f.text = v → r.ok = true ∧ Decoded f r := by
    rintro f hf rfl
    obtain ⟨r', hr', hok', hdec⟩ := parseTraceparent_text hf
    obtain rfl : r' = r := Option.some.inj (hr'.symm.trans hr)
    exact ⟨hok', hdec⟩
  refine ⟨r, hr, ⟨hok, ?_⟩, fun f hf ht => (hvalid f hf ht).2⟩
  rintro ⟨f, hf, ht⟩
  exact (hvalid f hf ht).1

/-- A later version with a field this parser does not know. -/
example : (parseTraceparent (str "cc-4bf92f3577b34da6a3ce929d0e0e4736-00f067aa0ba902b7-01-x")).map
    (fun r => (encodeToString r.parent.toList, r.sampled, r.ok)) = some (str "00f067aa0ba902b7", true, true) := by
  decide +kernel

end Messq

import Messq.Queue.Dead
import Messq.Utf8

/-! # Sanitised reasons

A reason comes from a child process and may be any bytes. `SanitizeReason` writes its runes one by one: white space
becomes one space, a control character its escape, an invalid byte U+FFFD. What it writes is `Clean`: runes that are
visible, with single spaces between them. A clean text stays clean when it is cut (`Clean.of_append`) and is written
back as it is (`Clean.fixed`), so the result is safe and sanitising it again changes nothing (`sanitizeReason_safe`). -/

namespace Messq

variable {inWS : Bool} {rs : List ℕ} {m : ℕ}

/-- A rune that is written as it is. -/
structure Visible (r : ℕ) : Prop where
  rune : IsRune r
  space : isSpace r = false
  control : isControl r = false

/-- Visible runes with single spaces; the flag is whether a space came before. -/
inductive Clean : Bool → List ℕ → Prop
  | nil (inWS : Bool) : Clean inWS []
  | space {rs : List ℕ} : Clean true rs → Clean false (0x20 :: rs)
  | visible {inWS : Bool} {r : ℕ} {rs : List ℕ} : Visible r → Clean false rs → Clean inWS (r :: rs)

section Clean

theorem Clean.isRune (h : Clean inWS rs) : ∀ r ∈ rs, IsRune r := by
  induction h with
  | nil => exact fun _ hr => absurd hr List.not_mem_nil
  | space _ ih => exact List.forall_mem_cons.mpr ⟨.inl (by decide), ih⟩
  | visible hr _ ih => exact List.forall_mem_cons.mpr ⟨hr.rune, ih⟩

theorem Clean.printable (h : Clean inWS rs) : ∀ r ∈ rs, isControl r = false ∧ (isSpace r = true → r = 0x20) := by
  induction h with
  | nil => exact fun _ hr => absurd hr List.not_mem_nil
  | space _ ih => exact List.forall_mem_cons.mpr ⟨⟨by decide, fun _ => rfl⟩, ih⟩
  | visible hr _ ih =>
    exact List.forall_mem_cons.mpr ⟨⟨hr.control, fun h => absurd h (by rw [hr.space]; decide)⟩, ih⟩

/-- No space after a space. -/
theorem Clean.single (h : Clean inWS rs) : (inWS = true → rs.head? ≠ some 0x20) ∧ ¬ [0x20, 0x20] <:+: rs := by
  induction h with
  | nil => exact ⟨fun _ => by simp, by simp⟩
  | space _ ih =>
    refine ⟨fun h => absurd h Bool.false_ne_true, fun hin => ?_⟩
    rcases List.infix_cons_iff.mp hin with hpre | hin
    · obtain ⟨t, ht⟩ := hpre
      refine ih.1 rfl ?_
      rw [← (List.cons.inj ht).2]
      rfl
    · exact ih.2 hin
  | @visible _ r rs hr _ ih =>
    have hne : r ≠ 0x20 := by
      rintro rfl
      exact absurd hr.space (by decide)
    refine ⟨fun _ h => hne (Option.some.inj h), fun hin => ?_⟩
    rcases List.infix_cons_iff.mp hin with hpre | hin
    · obtain ⟨t, ht⟩ := hpre
      exact hne (List.cons.inj ht).1.symm
    · exact ih.2 hin

theorem Clean.of_append {rs' : List ℕ} (h : Clean inWS (rs ++ rs')) : Clean inWS rs := by
  induction rs generalizing inWS with
  | nil => exact .nil inWS
  | cons r rs ih =>
    cases h with
    | space h => exact .space (ih h)
    | visible hr h => exact .visible hr (ih h)

theorem Clean.append_visible {es : List ℕ} (hes : ∀ r ∈ es, Visible r) (hne : es ≠ []) (h : Clean false rs) :
    Clean inWS (es ++ rs) := by
  induction es generalizing inWS with
  | nil => exact absurd rfl hne
  | cons e es ih =>
    obtain ⟨he, hes⟩ := List.forall_mem_cons.mp hes
    refine .visible he ?_
    by_cases hnil : es = []
    · rwa [hnil]
    · exact ih hes hnil

/-- A clean text is written back as it is. -/
theorem Clean.fixed (h : Clean inWS rs) : sanitizeRunes inWS (rs.map some) = encodeRunes rs := by
  induction h with
  | nil => rfl
  | space _ ih =>
    rw [List.map_cons, sanitizeRunes, Option.getD_some, if_pos (by decide), ih]
    rfl
  | visible hr _ ih =>
    rw [List.map_cons, sanitizeRunes, Option.getD_some, if_neg (by rw [hr.space]; decide),
      if_neg (by rw [hr.control]; decide), ih, encodeRunes_cons]

end Clean

/-- The escape of a control character is visible. -/
theorem controlEscape_visible {r : ℕ} (h : isControl r = true) :
    ∃ es, es ≠ [] ∧ controlEscape r = encodeRunes es ∧ ∀ e ∈ es, Visible e := by
  have hall : ∀ r < 0xA0, isControl r = true →
      controlEscape r ≠ [] ∧ (controlEscape r).all (fun b => 0x21 ≤ b.toNat && b.toNat < 0x7F) =
        true := by decide +kernel
  have hlt : r < 0xA0 := by
    simp only [isControl, Bool.or_eq_true, Bool.and_eq_true, decide_eq_true_eq] at h
    omega
  obtain ⟨hne, hall⟩ := hall r hlt h
  have hbytes : ∀ b ∈ controlEscape r, 0x21 ≤ b.toNat ∧ b.toNat < 0x7F :=
    fun b hb => by simpa using List.all_eq_true.mp hall b hb
  refine ⟨(controlEscape r).map UInt8.toNat, List.map_eq_nil_iff.not.mpr hne, ?_, ?_⟩
  · exact (encodeRunes_ascii fun b hb => by have := hbytes b hb; omega).symm
  · refine List.forall_mem_map.mpr fun b hb => ?_
    have hb := hbytes b hb
    have hascii : ∀ n < 0x7F, 0x21 ≤ n → isSpace n = false ∧ isControl n = false := by decide
    obtain ⟨hs, hc⟩ := hascii b.toNat hb.2 hb.1
    exact ⟨.inl (by omega), hs, hc⟩

/-- What the loop writes is clean. -/
theorem sanitizeRunes_clean (inWS : Bool) {rs : List (Option ℕ)} (h : ∀ r ∈ rs, IsRune (r.getD runeError)) :
    ∃ out, sanitizeRunes inWS rs = encodeRunes out ∧ Clean inWS out := by
  induction rs generalizing inWS with
  | nil => exact ⟨[], rfl, .nil inWS⟩
  | cons r rs ih =>
    obtain ⟨hr, hrs⟩ := List.forall_mem_cons.mp h
    rw [sanitizeRunes]
    by_cases hspace : isSpace (r.getD runeError) = true
    · obtain ⟨out, hout, hclean⟩ := ih true hrs
      rw [if_pos hspace, hout]
      cases inWS with
      | true => exact ⟨out, rfl, hclean⟩
      | false => exact ⟨0x20 :: out, rfl, .space hclean⟩
    · obtain ⟨out, hout, hclean⟩ := ih false hrs
      rw [if_neg hspace, hout]
      by_cases hcontrol : isControl (r.getD runeError) = true
      · obtain ⟨es, hne, hes, hvisible⟩ := controlEscape_visible hcontrol
        rw [if_pos hcontrol, hes, ← encodeRunes_append]
        exact ⟨es ++ out, rfl, hclean.append_visible hvisible hne⟩
      · rw [if_neg hcontrol]
        exact ⟨r.getD runeError :: out, rfl,
          .visible ⟨hr, Bool.not_eq_true _ ▸ hspace, Bool.not_eq_true _ ▸ hcontrol⟩ hclean⟩

/-- A text that is safe in a header: valid, without control characters, with single spaces as its only white space. -/
structure HeaderSafe (s : Bytes) : Prop where
  valid : validString s = true
  control : ∀ r ∈ runes s, ∀ n ∈ r, isControl n = false
  space : ∀ r ∈ runes s, ∀ n ∈ r, isSpace n = true → n = 0x20
  single : ¬ [some 0x20, some 0x20] <:+: runes s

theorem Clean.headerSafe (h : Clean inWS rs) : HeaderSafe (encodeRunes rs) := by
  have hrunes := runes_encodeRunes h.isRune
  refine ⟨validString_encodeRunes h.isRune, ?_, ?_, ?_⟩ <;> rw [hrunes]
  · exact List.forall_mem_map.mpr fun r hr n hn => Option.some.inj hn ▸ (h.printable r hr).1
  · exact List.forall_mem_map.mpr fun r hr n hn => Option.some.inj hn ▸ (h.printable r hr).2
  · intro hin
    refine h.single.2 ?_
    obtain ⟨rs', hrs', he⟩ := List.infix_map_iff.mp hin
    rwa [show [0x20, 0x20] = rs' from List.map_injective_iff.mpr (Option.some_injective _) he]

/-- What the result of a cut is to the whole text: whole runes from its start, as many as fit into `m` bytes. -/
structure LongestPrefix (out full : Bytes) (m : ℕ) : Prop where
  fits : out.length ≤ m
  runes : ∃ kept cut, (∀ r ∈ kept ++ cut, IsRune r) ∧ out = encodeRunes kept ∧ full = encodeRunes (kept ++ cut) ∧
    ∀ r ∈ cut.head?, m < (encodeRunes (kept ++ [r])).length

/-- The untruncated text is clean, and the result is the longest prefix of it that fits. -/
theorem sanitizeReason_cases (s : Bytes) (hm : 0 < m) :
    ∃ full kept cut, (sanitizeReason s 0).1 = encodeRunes full ∧ Clean false full ∧ full = kept ++ cut ∧
      sanitizeReason s m = (encodeRunes kept, decide (cut ≠ [])) ∧ (encodeRunes kept).length ≤ m ∧
      ∀ r ∈ cut.head?, m < (encodeRunes (kept ++ [r])).length := by
  obtain ⟨full, hfull, hclean⟩ := @sanitizeRunes_clean false (runes s) fun r hr => by
    cases r with
    | none => exact isRune_runeError
    | some r => exact runesFrom_isRune hr
  have hzero : (sanitizeReason s 0).1 = encodeRunes full := by
    rw [sanitizeReason, if_neg (by omega), hfull]
  by_cases hlong : (encodeRunes full).length > m
  · obtain ⟨kept, cut, rfl, htake, hle, hnext⟩ := takeRunes_encodeRunes hclean.isRune m
    have hcut : cut ≠ [] := by
      rintro rfl
      rw [List.append_nil] at hlong
      omega
    refine ⟨kept ++ cut, kept, cut, hzero, hclean, rfl, ?_, hle, hnext⟩
    rw [sanitizeReason, hfull, if_pos ⟨hm, hlong⟩, truncateUTF8, if_neg (by omega), htake, decide_eq_true hcut]
  · refine ⟨full, full, [], hzero, hclean, (List.append_nil _).symm, ?_, not_lt.mp hlong,
      fun r hr => absurd hr (by simp)⟩
    rw [sanitizeReason, hfull, if_neg (by omega), decide_eq_false (not_not.mpr rfl)]

/-- A clean text that fits is sanitised to itself. -/
theorem sanitizeReason_clean {kept : List ℕ} (h : Clean false kept) (hle : (encodeRunes kept).length ≤ m) :
    sanitizeReason (encodeRunes kept) m = (encodeRunes kept, false) := by
  rw [sanitizeReason, runes_encodeRunes h.isRune, h.fixed, if_neg (by omega)]

/-- Any bytes become a safe reason of at most `m` bytes: as much of the sanitised text as fits, reported as cut exactly
when it is not all of it, and fixed from then on. -/
theorem sanitizeReason_safe (s : Bytes) {m : ℕ} (hm : 0 < m) :
    HeaderSafe (sanitizeReason s m).1 ∧ LongestPrefix (sanitizeReason s m).1 (sanitizeReason s 0).1 m ∧
      ((sanitizeReason s m).2 = true ↔ (sanitizeReason s m).1 ≠ (sanitizeReason s 0).1) ∧
      sanitizeReason (sanitizeReason s m).1 m = ((sanitizeReason s m).1, false) := by
  obtain ⟨full, kept, cut, hzero, hclean, rfl, hresult, hle, hnext⟩ := sanitizeReason_cases s hm
  rw [hzero, hresult]
  refine ⟨hclean.of_append.headerSafe, ⟨hle, kept, cut, hclean.isRune, rfl, rfl, hnext⟩, ?_,
    sanitizeReason_clean hclean.of_append hle⟩
  rw [decide_eq_true_eq, not_iff_not]
  constructor
  · rintro rfl
    rw [List.append_nil]
  · intro he
    have := encodeRunes_inj hclean.of_append.isRune hclean.isRune he
    exact List.append_cancel_left ((List.append_nil kept).trans this).symm

/-- A reason with a tab, an escape sequence, a bell and an invalid byte, which no longer fits. -/
theorem sanitizeReason_safe_twelve :
    sanitizeReason (str "boom\t \x1b[1m\x07" ++ [0xFF]) 12 = (str "boom \\e[1m\\a", true) ∧
      HeaderSafe (str "boom \\e[1m\\a") := by
  have hrun : sanitizeReason (str "boom\t \x1b[1m\x07" ++ [0xFF]) 12 = (str "boom \\e[1m\\a", true) := by decide
  have hsafe := (sanitizeReason_safe (str "boom\t \x1b[1m\x07" ++ [0xFF]) (m := 12) (by decide)).1
  rw [hrun] at hsafe
  exact ⟨hrun, hsafe⟩

end Messq

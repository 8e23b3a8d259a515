import Messq.Queue.Token
import Messq.Utf8

/-! # Grammars

The texts the broker parses. An ack token is parsed exactly from its own rendering (`parseToken_iff`): the number fields
carry no sign and no leading zero (`parseUintField_iff`), and a rendering is never longer than the parser reads
(`Token.Valid.length_string`). A subject is parsed exactly when it is a list of tokens over the alphabet of the grammar
(`parse_isOk`), which is stated over runes and their encoding, not over the scanner. -/

namespace Messq

variable {last w : Bool} {s seg f : Bytes} {rs : List ℕ} {c : UInt8} {n d k v : ℕ} {rss : List (List ℕ)}
  {segs : List Bytes} {t : Token} {m : ℤ}

/-! ## Numbers -/

/-- The digit of a number below ten. -/
theorem itoa_digit (h : d < 10) : itoa d = [(48 + d).toUInt8] := by
  show (Nat.toDigits 10 d).map chr = _
  rw [Nat.toDigits_of_lt_base h, List.map_singleton, chr, Nat.toNat_digitChar_of_lt_ten h]

theorem itoa_snoc (hn : 0 < n) (hd : d < 10) : itoa (n * 10 + d : ℕ) = itoa n ++ [(48 + d).toUInt8] := by
  rw [← itoa_digit hd]
  show (Nat.toDigits 10 (n * 10 + d)).map chr = (Nat.toDigits 10 n).map chr ++ (Nat.toDigits 10 d).map chr
  rw [← List.map_append, Nat.toDigits_append_toDigits (by decide) hn hd, Nat.mul_comm]

/-- A natural number is written in digits. -/
theorem mem_itoa (h : c ∈ itoa n) : 48 ≤ c.toNat ∧ c.toNat ≤ 57 := by
  obtain ⟨d, hd, rfl⟩ := List.mem_map.mp h
  have hdigit := toDigits_isDigit n d hd
  simp only [Char.isDigit, Bool.and_eq_true, decide_eq_true_eq] at hdigit
  have h₁ : 48 ≤ d.toNat := UInt32.le_iff_toNat_le.mp hdigit.1
  have h₂ : d.toNat ≤ 57 := UInt32.le_iff_toNat_le.mp hdigit.2
  rw [chr, toUInt8_toNat (by omega)]
  exact ⟨h₁, h₂⟩

theorem itoa_ne_nil (n : ℕ) : itoa n ≠ [] := fun h => Nat.toDigits_ne_nil (List.map_eq_nil_iff.mp h)

/-- A positive number has no leading zero. -/
theorem itoa_head (hn : 0 < n) {t : Bytes} (h : itoa n = c :: t) : c ≠ chr '0' := by
  induction n using Nat.strong_induction_on generalizing c t with
  | _ n ih =>
    by_cases hlt : n < 10
    · rw [itoa_digit hlt] at h
      rintro rfl
      have := congrArg UInt8.toNat (List.cons.inj h).1
      rw [toUInt8_toNat (by omega), show (chr '0').toNat = 48 from rfl] at this
      omega
    · have hsplit : n = n / 10 * 10 + n % 10 := by omega
      have htext := itoa_snoc (n := n / 10) (by omega) (Nat.mod_lt n (by decide))
      rw [← hsplit, h] at htext
      obtain ⟨c', t', hc⟩ := List.exists_cons_of_ne_nil (itoa_ne_nil (n / 10))
      rw [hc, List.cons_append] at htext
      rw [(List.cons.inj htext).1]
      exact ih (n / 10) (by omega) (by omega) hc

theorem length_itoa_le (hk : 0 < k) (h : n < 10 ^ k) : (itoa n).length ≤ k := by
  rw [show itoa n = (Nat.toDigits 10 n).map chr from rfl, List.length_map]
  exact Nat.toDigits_length 10 n k hk h

/-- What is read after the digits of `acc` completes them to the number. -/
theorem parseUint_iff {acc : ℕ} (hacc : 0 < acc) : parseUint acc s = some v ↔ v < 2 ^ 64 ∧ itoa acc ++ s = itoa v := by
  induction s generalizing acc with
  | nil =>
    rw [List.append_nil, parseUint, itoa_injective.eq_iff, Nat.cast_inj]
    split
    · rename_i hlt
      exact ⟨fun h => ⟨Option.some.inj h ▸ hlt, Option.some.inj h⟩, fun h => congrArg some h.2⟩
    · rename_i hlt
      exact ⟨fun h => (by cases h), fun h => absurd (h.2 ▸ h.1) hlt⟩
  | cons c s ih =>
    by_cases hc : 48 ≤ c.toNat ∧ c.toNat ≤ 57
    · have hsnoc := itoa_snoc (d := c.toNat - 48) hacc (by omega)
      rw [toUInt8_eq (b := c) (by omega)] at hsnoc
      rw [parseUint, if_pos hc, ih (by omega), hsnoc, List.append_assoc]
      rfl
    · rw [parseUint, if_neg hc]
      refine ⟨fun h => (by cases h), fun h => absurd (mem_itoa (n := v) ?_) hc⟩
      rw [← h.2]
      exact List.mem_append_right _ List.mem_cons_self

theorem parseUintField_iff : parseUintField f = .ok v ↔ (0 < v ∧ v < 2 ^ 64) ∧ f = itoa v := by
  cases f with
  | nil => exact ⟨fun h => (by cases h), fun h => absurd h.2.symm (itoa_ne_nil v)⟩
  | cons c s =>
    rw [parseUintField, Lib.guard_eq_ok]
    have hfirst : c ≠ chr '0' → (parseUint 0 (c :: s) = some v ↔ v < 2 ^ 64 ∧ c :: s = itoa v) := by
      intro hc
      by_cases hdigit : 48 ≤ c.toNat ∧ c.toNat ≤ 57
      · have hpos : 0 < c.toNat - 48 := by
          rcases Nat.lt_or_eq_of_le hdigit.1 with h | h
          · omega
          · exact absurd (UInt8.toNat_inj.mp h.symm) hc
        rw [parseUint, if_pos hdigit, Nat.zero_mul, Nat.zero_add, parseUint_iff hpos, itoa_digit (by omega),
          toUInt8_eq (b := c) (by omega)]
        rfl
      · rw [parseUint, if_neg hdigit]
        exact ⟨fun h => (by cases h), fun h => absurd (mem_itoa (h.2 ▸ List.mem_cons_self)) hdigit⟩
    constructor
    · rintro ⟨hc, h⟩
      split at h
      · rename_i v' hv
        cases h
        obtain ⟨hlt, htext⟩ := (hfirst hc).mp hv
        refine ⟨⟨Nat.pos_of_ne_zero ?_, hlt⟩, htext⟩
        rintro rfl
        exact hc (List.cons.inj htext).1
      · cases h
    · rintro ⟨⟨hpos, hlt⟩, htext⟩
      have hc : c ≠ chr '0' := itoa_head hpos htext.symm
      exact ⟨hc, by rw [(hfirst hc).mpr ⟨hlt, htext⟩]⟩

theorem parseBounded_iff {v : ℤ} (hm : m < 2 ^ 64) : parseBounded f m = .ok v ↔ (1 ≤ v ∧ v ≤ m) ∧ f = itoa v := by
  simp only [parseBounded, Lib.bind_eq_ok, Lib.guard_eq_ok, parseUintField_iff]
  constructor
  · rintro ⟨n, ⟨-, rfl⟩, hn, hv⟩
    cases hv
    exact ⟨by omega, rfl⟩
  · rintro ⟨hv, rfl⟩
    obtain ⟨n, rfl⟩ := Int.eq_ofNat_of_zero_le (show 0 ≤ v by omega)
    exact ⟨n, ⟨by omega, rfl⟩, by omega, rfl⟩

/-! ## Ack tokens -/

theorem cut_iff {a r : Bytes} : cut s = some (a, r) ↔ chr '/' ∉ a ∧ s = a ++ chr '/' :: r := by
  induction s generalizing a with
  | nil => exact ⟨fun h => (by cases h), fun h => absurd h.2.symm (by simp)⟩
  | cons c s ih =>
    by_cases hc : c = chr '/'
    · rw [cut, if_pos hc]
      constructor
      · intro h
        cases h
        exact ⟨List.not_mem_nil, congrArg (List.cons · r) hc⟩
      · rintro ⟨ha, h⟩
        cases a with
        | nil => rw [(List.cons.inj h).2]
        | cons d a => exact absurd ((List.cons.inj h).1 ▸ hc.symm ▸ List.mem_cons_self) ha
    · rw [cut, if_neg hc, Option.map_eq_some_iff]
      constructor
      · rintro ⟨⟨a', r'⟩, h, he⟩
        cases he
        obtain ⟨ha, rfl⟩ := ih.mp h
        exact ⟨List.not_mem_cons_of_ne_of_not_mem (Ne.symm hc) ha, rfl⟩
      · rintro ⟨ha, h⟩
        cases a with
        | nil => exact absurd (List.cons.inj h).1 hc
        | cons d a =>
          obtain ⟨rfl, hs⟩ := List.cons.inj h
          exact ⟨(a, r), ih.mpr ⟨List.not_mem_of_not_mem_cons ha, hs⟩, rfl⟩

theorem validateName_length {name : Bytes} {dots : Bool} (h : Subject.validateName name dots n = .ok ()) :
    0 < name.length ∧ name.length ≤ n := by
  simp only [Subject.validateName, Lib.guard_eq_ok] at h
  exact ⟨List.length_pos_iff.mpr h.1, not_lt.mp h.2.1⟩

theorem length_itoa_field {v : ℤ} (hk : 0 < k) (hv : 1 ≤ v ∧ v ≤ m) (hm : m < 10 ^ k) : (itoa v).length ≤ k := by
  obtain ⟨n, rfl⟩ := Int.eq_ofNat_of_zero_le (show 0 ≤ v by omega)
  exact length_itoa_le hk (by zify; omega)

/-- The parser reads every rendering: two names, nineteen digits and twice ten, and the separators. -/
theorem Token.Valid.length_string (h : t.Valid) : t.string.length ≤ maxTokenLen := by
  have hs := (validateName_length h.stream).2
  have hc := (validateName_length h.consumer).2
  have hseq := length_itoa_field (k := 19) (by decide) h.seq (by decide)
  have hatt := length_itoa_field (k := 10) (by decide) h.attempt (by decide)
  have hgen := length_itoa_field (k := 10) (by decide) h.generation (by decide)
  simp only [Token.string, List.length_append, List.length_cons]
  simp only [Subject.maxStreamNameBytes, Subject.maxConsumerNameBytes, maxTokenLen] at hs hc ⊢
  omega

/-- A text is parsed as a token exactly when the token is in range and the text is its rendering. -/
theorem parseToken_iff : parseToken s = .ok t ↔ t.Valid ∧ s = t.string := by
  constructor
  · intro h
    refine ⟨parseToken_valid h, ?_⟩
    simp only [parseToken, Lib.guard_eq_ok, Lib.bind_eq_ok, Lib.pure_eq_ok, Lib.orError_eq_ok] at h
    obtain ⟨-, -, ⟨stream, r₁⟩, h₁, ⟨consumer, r₂⟩, h₂, ⟨seqStr, r₃⟩, h₃, ⟨attemptStr, genStr⟩, h₄, -, -,
      seq, hseq, attempt, hatt, generation, hgen, rfl⟩ := h
    obtain ⟨-, rfl⟩ := (parseBounded_iff (by decide)).mp hseq
    obtain ⟨-, rfl⟩ := (parseBounded_iff (by decide)).mp hatt
    obtain ⟨-, rfl⟩ := (parseBounded_iff (by decide)).mp hgen
    obtain ⟨-, rfl⟩ := cut_iff.mp h₁
    obtain ⟨-, rfl⟩ := cut_iff.mp h₂
    obtain ⟨-, rfl⟩ := cut_iff.mp h₃
    obtain ⟨-, rfl⟩ := cut_iff.mp h₄
    rfl
  · rintro ⟨hv, rfl⟩
    have hne : t.string ≠ [] := by simp [Token.string]
    simp only [parseToken, Lib.guard_eq_ok, Lib.bind_eq_ok, Lib.pure_eq_ok, Lib.orError_eq_ok]
    refine ⟨not_lt.mpr hv.length_string, hne, (t.stream, _), cut_iff.mpr ⟨Subject.validateName_no_slash hv.stream, rfl⟩,
      (t.consumer, _), cut_iff.mpr ⟨Subject.validateName_no_slash hv.consumer, rfl⟩, (itoa t.seq, _),
      cut_iff.mpr ⟨itoa_no_slash _, rfl⟩, (itoa t.attempt, _), cut_iff.mpr ⟨itoa_no_slash _, rfl⟩,
      not_not.mpr hv.stream, not_not.mpr hv.consumer, t.seq, ?_, t.attempt, ?_, t.generation, ?_, rfl⟩
    · exact (parseBounded_iff (by decide)).mpr ⟨hv.seq, rfl⟩
    · exact (parseBounded_iff (by decide)).mpr ⟨hv.attempt, rfl⟩
    · exact (parseBounded_iff (by decide)).mpr ⟨hv.generation, rfl⟩

/-- Parsing and rendering are inverse to each other: a token in range is parsed from its text, an accepted text is the
text of what it parses to, and the accepted texts are the texts of the tokens in range. -/
theorem token_text_bijection :
    (∀ t : Token, t.Valid → parseToken t.string = .ok t) ∧
      (∀ s t, parseToken s = .ok t → t.string = s) ∧
      ∀ s, (∃ t, parseToken s = .ok t) ↔ ∃ t : Token, t.Valid ∧ t.string = s := by
  refine ⟨fun t ht => parseToken_iff.mpr ⟨ht, rfl⟩, fun s t h => (parseToken_iff.mp h).2.symm, fun s => ?_⟩
  refine exists_congr fun t => parseToken_iff.trans (and_congr_right fun _ => eq_comm)

/-- A token with a name under a dead-letter stream. -/
theorem token_text_bijection_dlq :
    Token.Valid ⟨str "orders.dlq", str "billing", 42, 3, 1⟩ ∧
      parseToken (Token.string ⟨str "orders.dlq", str "billing", 42, 3, 1⟩) =
        .ok ⟨str "orders.dlq", str "billing", 42, 3, 1⟩ := by
  have hv : Token.Valid ⟨str "orders.dlq", str "billing", 42, 3, 1⟩ :=
    ⟨by decide, by decide, by decide, by decide, by decide⟩
  exact ⟨hv, token_text_bijection.1 _ hv⟩

/-! ## Subjects and patterns -/

namespace Subject

/-- A rune of a literal token: no space, no control character, no separator and no wildcard. -/
structure PlainRune (r : ℕ) : Prop where
  rune : IsRune r
  space : r ≠ 0x20
  control : isControl r = false
  dot : r ≠ 0x2E
  star : r ≠ 0x2A
  gt : r ≠ 0x3E

/-- A literal token is one or more plain runes. -/
def LiteralToken (seg : Bytes) : Prop := ∃ rs, rs ≠ [] ∧ (∀ r ∈ rs, PlainRune r) ∧ seg = encodeRunes rs

/-- A text of one to 32 tokens between dots, in at most 512 bytes; `token` is what a token may be, and whether it is the
last. -/
structure TokenList (token : Bytes → Bool → Prop) (s : Bytes) (segs : List Bytes) : Prop where
  text : s = [chr '.'].intercalate segs
  length : s.length ≤ 512
  nonempty : segs ≠ []
  count : segs.length ≤ 32
  tokens : ∀ before seg after, segs = before ++ seg :: after → token seg after.isEmpty

/-- A publish target holds literal tokens only. -/
def IsSubject (s : Bytes) : Prop := ∃ segs, TokenList (fun seg _ => LiteralToken seg) s segs

/-- A pattern may also hold a lone `*` anywhere and a lone `>` at its end. -/
def IsPattern (s : Bytes) : Prop :=
  ∃ segs, TokenList (fun seg last => LiteralToken seg ∨ seg = str "*" ∨ (last = true ∧ seg = str ">")) s segs

theorem LiteralToken.ne_nil (h : LiteralToken seg) : seg ≠ [] := by
  obtain ⟨rs, hne, -, rfl⟩ := h
  obtain ⟨r, rs, rfl⟩ := List.exists_cons_of_ne_nil hne
  rw [encodeRunes_cons]
  exact List.append_ne_nil_of_left_ne_nil (encodeRune_ne_nil r) _

/-- The runes of a literal token are plain. -/
theorem LiteralToken.plain (hrs : ∀ r ∈ rs, IsRune r) (h : LiteralToken (encodeRunes rs)) : ∀ r ∈ rs, PlainRune r := by
  obtain ⟨rs', -, hplain, he⟩ := h
  rwa [encodeRunes_inj hrs (fun r hr => (hplain r hr).rune) he]

/-- A wildcard is no literal token. -/
theorem not_literalToken_singleton {r : ℕ} (hr : r < 0x80) (h : ¬ PlainRune r) : ¬ LiteralToken [r.toUInt8] := by
  intro hl
  rw [← encodeRune_ascii hr, ← List.append_nil (encodeRune r), ← encodeRunes_nil, ← encodeRunes_cons] at hl
  exact h (hl.plain (fun x hx => List.mem_singleton.mp hx ▸ .inl (by omega)) r List.mem_cons_self)

/-! ### Separators -/

theorem dot_notMem_encodeRunes (h : ∀ r ∈ rs, IsRune r) (hdot : 0x2E ∉ rs) : chr '.' ∉ encodeRunes rs := by
  intro hm
  obtain ⟨r, hr, hc⟩ := List.mem_flatMap.mp hm
  have : (chr '.').toNat = r := mem_encodeRune_ascii (h r hr) (by decide) hc
  exact hdot ((show r = 0x2E from this.symm) ▸ hr)

theorem LiteralToken.dot_notMem (h : LiteralToken seg) : chr '.' ∉ seg := by
  obtain ⟨rs, -, hplain, rfl⟩ := h
  exact dot_notMem_encodeRunes (fun r hr => (hplain r hr).rune) fun hm => (hplain _ hm).dot rfl

/-- Joining tokens without separators is undone by splitting. -/
theorem segments_intercalate (hne : segs ≠ []) (h : ∀ seg ∈ segs, chr '.' ∉ seg) :
    segments ([chr '.'].intercalate segs) = segs := by
  rw [segments_eq_splitOn]
  exact List.splitOn_intercalate _ h hne

theorem notMem_of_mem_splitOn {α : Type*} [BEq α] [LawfulBEq α] {a : α} {l seg : List α} (h : seg ∈ l.splitOn a) :
    a ∉ seg ∧ ∀ x ∈ seg, x ∈ l := by
  induction l generalizing seg with
  | nil =>
    rw [List.splitOn_nil, List.mem_singleton] at h
    rw [h]
    exact ⟨List.not_mem_nil, fun _ hx => hx⟩
  | cons c l ih =>
    rw [List.splitOn_cons_eq_if_modifyHead] at h
    obtain ⟨seg₀, segs, hs⟩ := List.exists_cons_of_ne_nil (List.splitOn_ne_nil a l)
    rw [hs] at h ih
    split at h
    · rcases List.mem_cons.mp h with rfl | h
      · exact ⟨List.not_mem_nil, fun _ hx => absurd hx List.not_mem_nil⟩
      · exact ⟨(ih h).1, fun x hx => List.mem_cons_of_mem _ ((ih h).2 x hx)⟩
    · rename_i hc
      rw [beq_iff_eq] at hc
      rcases List.mem_cons.mp h with rfl | h
      · obtain ⟨hno, hsub⟩ := ih List.mem_cons_self
        exact ⟨List.not_mem_cons_of_ne_of_not_mem (Ne.symm hc) hno,
          List.forall_mem_cons.mpr ⟨List.mem_cons_self, fun x hx => List.mem_cons_of_mem _ (hsub x hx)⟩⟩
      · obtain ⟨hno, hsub⟩ := ih (List.mem_cons_of_mem _ h)
        exact ⟨hno, fun x hx => List.mem_cons_of_mem _ (hsub x hx)⟩

theorem encodeRunes_intercalate (rss : List (List ℕ)) :
    encodeRunes ([0x2E].intercalate rss) = [chr '.'].intercalate (rss.map encodeRunes) := by
  induction rss with
  | nil => rfl
  | cons rs rss ih =>
    cases rss with
    | nil => simp only [List.map_cons, List.map_nil, List.intercalate_singleton]
    | cons rs' rss =>
      rw [List.intercalate_cons_cons, encodeRunes_append, encodeRunes_append, ih]
      simp only [List.map_cons, List.intercalate_cons_cons]
      rfl

theorem isRune_intercalate (h : ∀ rs ∈ rss, ∀ r ∈ rs, IsRune r) : ∀ r ∈ [0x2E].intercalate rss, IsRune r := by
  induction rss with
  | nil => exact fun _ hr => absurd hr List.not_mem_nil
  | cons rs rss ih =>
    obtain ⟨hrs, hrss⟩ := List.forall_mem_cons.mp h
    cases rss with
    | nil => rwa [List.intercalate_singleton]
    | cons rs' rss =>
      rw [List.intercalate_cons_cons]
      exact List.forall_mem_append.mpr ⟨List.forall_mem_append.mpr
        ⟨hrs, List.forall_mem_singleton.mpr (.inl (by decide))⟩, ih hrss⟩

/-- Splitting a text of runes splits the runes. -/
theorem segments_encodeRunes (h : ∀ r ∈ rs, IsRune r) :
    ∃ rss : List (List ℕ), segments (encodeRunes rs) = rss.map encodeRunes ∧
      encodeRunes rs = [chr '.'].intercalate (rss.map encodeRunes) ∧ ∀ rs' ∈ rss, ∀ r ∈ rs', IsRune r ∧ r ≠ 0x2E := by
  have hrss : ∀ rs' ∈ rs.splitOn 0x2E, ∀ r ∈ rs', IsRune r ∧ r ≠ 0x2E := by
    intro rs' hrs' r hr
    obtain ⟨hno, hsub⟩ := notMem_of_mem_splitOn hrs'
    exact ⟨h r (hsub r hr), fun he => hno (he ▸ hr)⟩
  have htext : encodeRunes rs = [chr '.'].intercalate ((rs.splitOn 0x2E).map encodeRunes) := by
    rw [← encodeRunes_intercalate, List.intercalate_splitOn]
  refine ⟨rs.splitOn 0x2E, ?_, htext, hrss⟩
  rw [htext]
  refine segments_intercalate (List.map_eq_nil_iff.not.mpr (List.splitOn_ne_nil _ _)) (List.forall_mem_map.mpr ?_)
  exact fun rs' hrs' => dot_notMem_encodeRunes (fun r hr => (hrss rs' hrs' r hr).1) fun hm => (hrss rs' hrs' _ hm).2 rfl

/-! ### Tokens -/

/-- What a token may be where wildcards are allowed or not. -/
def Allowed (wildcards : Bool) (seg : Bytes) (last : Bool) : Prop :=
  LiteralToken seg ∨ wildcards = true ∧ (seg = str "*" ∨ (last = true ∧ seg = str ">"))

theorem Allowed.dot_notMem (h : Allowed w seg last) : chr '.' ∉ seg := by
  rcases h with h | ⟨-, rfl | ⟨-, rfl⟩⟩
  · exact h.dot_notMem
  · decide
  · decide

theorem Allowed.ne_nil (h : Allowed w seg last) : seg ≠ [] := by
  rcases h with h | ⟨-, rfl | ⟨-, rfl⟩⟩
  · exact h.ne_nil
  · decide
  · decide

theorem Allowed.runes (h : Allowed w seg last) : ∃ rs, seg = encodeRunes rs ∧ ∀ r ∈ rs, IsRune r ∧ r ≠ 0x2E := by
  rcases h with ⟨rs, -, hrs, rfl⟩ | ⟨-, rfl | ⟨-, rfl⟩⟩
  · exact ⟨rs, rfl, fun r hr => ⟨(hrs r hr).rune, (hrs r hr).dot⟩⟩
  · exact ⟨[0x2A], rfl, List.forall_mem_singleton.mpr ⟨.inl (by decide), by decide⟩⟩
  · exact ⟨[0x3E], rfl, List.forall_mem_singleton.mpr ⟨.inl (by decide), by decide⟩⟩

/-- One token of a valid text is compiled exactly when it is allowed. -/
theorem classify_isOk (hrs : ∀ r ∈ rs, IsRune r ∧ r ≠ 0x2E) :
    (∃ t, classify (encodeRunes rs) w last = .ok t) ↔ Allowed w (encodeRunes rs) last := by
  have hrunes : ∀ r ∈ rs, IsRune r := fun r hr => (hrs r hr).1
  unfold classify
  by_cases hnil : encodeRunes rs = []
  · rw [if_pos hnil, hnil]
    constructor
    · rintro ⟨_, h⟩
      cases h
    · exact fun h => absurd rfl (Allowed.ne_nil h)
  rw [if_neg hnil]
  by_cases hstar : encodeRunes rs = str "*"
  · have hno : ¬ LiteralToken (str "*") := not_literalToken_singleton (r := 0x2A) (by decide) fun h => h.star rfl
    rw [if_pos hstar, hstar, Allowed]
    cases w with
    | false => simp [hno]
    | true => simp
  rw [if_neg hstar]
  by_cases hgt : encodeRunes rs = str ">"
  · have hno : ¬ LiteralToken (str ">") := not_literalToken_singleton (r := 0x3E) (by decide) fun h => h.gt rfl
    rw [if_pos hgt, hgt, Allowed]
    cases w with
    | false => simp [hno]
    | true =>
      cases last with
      | false => simp [hno, show str ">" ≠ str "*" by decide]
      | true => simp
  rw [if_neg hgt]
  have hallowed : Allowed w (encodeRunes rs) last ↔ ∀ r ∈ rs, PlainRune r := by
    constructor
    · rintro (h | ⟨-, h | ⟨-, h⟩⟩)
      · exact h.plain hrunes
      · exact absurd h hstar
      · exact absurd h hgt
    · intro h
      refine .inl ⟨rs, ?_, h, rfl⟩
      rintro rfl
      exact hnil rfl
  rw [hallowed, runes_encodeRunes hrunes]
  -- the loop returns a literal when no rune offends
  have hfree : ∀ {f : Option ℕ → Option Err} {bad : Option Err}, (∀ r ∈ rs, f (some r) = none ↔ PlainRune r) →
      (rs.map some).findSome? f = bad → (bad = none ↔ ∀ r ∈ rs, PlainRune r) := by
    rintro f _ hf rfl
    rw [List.findSome?_eq_none_iff, List.forall_mem_map]
    exact forall₂_congr hf
  generalize hbad : List.findSome? _ _ = bad
  rw [← hfree (fun r hr => ?_) hbad]
  · cases bad with
    | none => simp
    | some e => simp
  obtain ⟨hrune, hdot⟩ := hrs r hr
  simp only [Option.getD_some]
  constructor
  · intro h
    split_ifs at h with h₁ h₂
    push Not at h₁ h₂
    exact ⟨hrune, h₂.1, Bool.not_eq_true _ ▸ h₂.2, hdot, h₁.1, h₁.2⟩
  · intro h
    rw [if_neg (by rintro (h' | h'); exacts [h.star h', h.gt h']),
      if_neg (by rintro (h' | h'); exacts [h.space h', absurd h' (by rw [h.control]; decide)])]

/-- The loop compiles a list of allowed tokens, as long as there is room for them. -/
theorem parseSegments_isOk (hn : n ≤ maxTokens) (h : ∀ rs ∈ rss, ∀ r ∈ rs, IsRune r ∧ r ≠ 0x2E) :
    (∃ ts, parseSegments w n (rss.map encodeRunes) = .ok ts) ↔ n + rss.length ≤ maxTokens ∧
      ∀ before seg after, rss.map encodeRunes = before ++ seg :: after → Allowed w seg after.isEmpty := by
  induction rss generalizing n with
  | nil =>
    refine ⟨fun _ => ⟨hn, fun before seg after he => ?_⟩, fun _ => ⟨[], rfl⟩⟩
    simp at he
  | cons rs rss ih =>
    obtain ⟨hrs, hrss⟩ := List.forall_mem_cons.mp h
    simp only [List.map_cons, parseSegments, Lib.guard_eq_ok, Lib.bind_eq_ok, Lib.pure_eq_ok]
    constructor
    · rintro ⟨ts, hlt, t, ht, ts', hts', -⟩
      obtain ⟨hlen, htokens⟩ := (ih (by omega) hrss).mp ⟨ts', hts'⟩
      refine ⟨by rw [List.length_cons]; omega, fun before seg after he => ?_⟩
      cases before with
      | nil =>
        obtain ⟨rfl, rfl⟩ := List.cons.inj he
        exact (classify_isOk hrs).mp ⟨t, ht⟩
      | cons b before => exact htokens before seg after (List.cons.inj he).2
    · rintro ⟨hlen, htokens⟩
      rw [List.length_cons] at hlen
      obtain ⟨ts', hts'⟩ := (ih (n := n + 1) (by omega) hrss).mpr
        ⟨by omega, fun before seg after he => htokens (_ :: before) seg after (congrArg _ he)⟩
      obtain ⟨t, ht⟩ := (classify_isOk hrs).mpr (htokens [] _ _ rfl)
      exact ⟨t :: ts', by omega, t, ht, ts', hts', rfl⟩

/-- The scanner accepts exactly the texts of the grammar. -/
theorem parse_isOk : (∃ ts, parse s w = .ok ts) ↔ ∃ segs, TokenList (Allowed w) s segs := by
  simp only [parse, Lib.guard_eq_ok, Bool.not_eq_true', Bool.not_eq_false]
  constructor
  · rintro ⟨ts, hne, hlen, hvalid, h⟩
    obtain ⟨rs, hrs, rfl⟩ := validString_iff.mp hvalid
    obtain ⟨rss, hsegs, htext, hrss⟩ := segments_encodeRunes hrs
    rw [hsegs] at h
    obtain ⟨hcount, htokens⟩ := (parseSegments_isOk (Nat.zero_le _) hrss).mp ⟨ts, h⟩
    refine ⟨rss.map encodeRunes, htext, not_lt.mp hlen, hsegs ▸ segments_ne_nil _, ?_, htokens⟩
    rw [List.length_map]
    exact Nat.zero_add rss.length ▸ hcount
  · rintro ⟨segs, h⟩
    have hallowed : ∀ seg ∈ segs, ∃ last, Allowed w seg last := by
      intro seg hseg
      obtain ⟨before, after, rfl⟩ := List.append_of_mem hseg
      exact ⟨after.isEmpty, h.tokens before seg after rfl⟩
    have hrunes : ∀ seg ∈ segs, ∃ rs, seg = encodeRunes rs ∧ ∀ r ∈ rs, IsRune r ∧ r ≠ 0x2E :=
      fun seg hseg => (hallowed seg hseg).elim fun _ ha => ha.runes
    choose! f hf using hrunes
    have hsegs : (segs.map f).map encodeRunes = segs := by
      rw [List.map_map]
      exact (List.map_congr_left fun seg hseg => (hf seg hseg).1.symm).trans (List.map_id segs)
    have hrss : ∀ rs ∈ segs.map f, ∀ r ∈ rs, IsRune r ∧ r ≠ 0x2E :=
      List.forall_mem_map.mpr fun seg hseg => (hf seg hseg).2
    have hvalid : validString s = true := by
      rw [h.text, ← hsegs, ← encodeRunes_intercalate]
      exact validString_encodeRunes (isRune_intercalate fun rs hrs r hr => (hrss rs hrs r hr).1)
    have hsplit : segments s = (segs.map f).map encodeRunes := by
      rw [hsegs, h.text]
      exact segments_intercalate h.nonempty fun seg hseg => (hallowed seg hseg).elim fun _ ha => ha.dot_notMem
    have hne : s ≠ [] := by
      rintro rfl
      obtain ⟨_, hnil⟩ := hallowed [] (by rw [← hsegs, ← hsplit]; exact List.mem_cons_self)
      exact hnil.ne_nil rfl
    obtain ⟨ts, hts⟩ := (parseSegments_isOk (n := 0) (Nat.zero_le _) hrss).mpr
      ⟨by rw [List.length_map, Nat.zero_add]; exact h.count, hsegs.symm ▸ h.tokens⟩
    exact ⟨ts, hne, not_lt.mpr h.length, hvalid, hsplit ▸ hts⟩

theorem TokenList.imp {p q : Bytes → Bool → Prop} (h : TokenList p s segs) (hpq : ∀ seg last, p seg last → q seg last) :
    TokenList q s segs :=
  ⟨h.text, h.length, h.nonempty, h.count, fun before seg after he => hpq _ _ (h.tokens before seg after he)⟩

/-- A text is a publish target exactly when the grammar says so, and a pattern exactly when its grammar does. -/
theorem subject_grammar (s : Bytes) :
    (parseSubject s = .ok () ↔ IsSubject s) ∧ ((∃ p, parsePattern s = .ok p) ↔ IsPattern s) := by
  constructor
  · have hparse : parseSubject s = .ok () ↔ ∃ ts, parse s false = .ok ts := by
      simp only [parseSubject, Lib.bind_eq_ok, Lib.pure_eq_ok, and_true]
    rw [hparse, parse_isOk]
    refine exists_congr fun segs => ⟨fun h => h.imp fun seg _ ha => ?_, fun h => h.imp fun seg _ ha => .inl ha⟩
    exact ha.resolve_right fun hw => Bool.false_ne_true hw.1
  · have hparse : (∃ p, parsePattern s = .ok p) ↔ ∃ ts, parse s true = .ok ts := by
      simp only [parsePattern, Lib.bind_eq_ok, Lib.pure_eq_ok]
      constructor
      · rintro ⟨_, ts, h, -⟩
        exact ⟨ts, h⟩
      · rintro ⟨ts, h⟩
        exact ⟨_, ts, h, rfl⟩
    rw [hparse, parse_isOk]
    exact exists_congr fun segs => ⟨fun h => h.imp fun seg _ ha => ha.imp_right And.right,
      fun h => h.imp fun seg _ ha => ha.imp_right fun hw => ⟨rfl, hw⟩⟩

end Subject

end Messq

import Messq.Property.Grammar

/-! # The matcher and its reference

`Pattern.Match` walks the bytes of a subject: it looks for the next separator, keeps what is left and whether the
subject ran out. The model package has the same rules without compilation: it splits both sides at the dots and walks
the two lists. Both are the walk over token lists of `Pattern.match` (`walk_eq_match`, `reference_eq_match`), so they
agree on every text (`walk_eq_reference`). The literal start and the token count of a compiled pattern, by which a scan
is narrowed, hold of every text it matches (`walk_narrowed`). -/

namespace Messq.Subject

variable {raw s seg : Bytes} {ts : List Token} {p : Pattern} {t : Token} {w : Bool} {pt segs st : List Bytes} {n : ℕ}

/-! ## Walking bytes -/

theorem idxOf?_lt {c : UInt8} {i : ℕ} (h : s.idxOf? c = some i) : i < s.length := by
  obtain ⟨hi, -⟩ := List.findIdx?_eq_some_iff_getElem.mp h
  exact hi

/-- `validTail`: what is left is one or more valid tokens. -/
def validTail (rest : Bytes) : Bool :=
  match _h : rest.idxOf? (chr '.') with
  | none => validSegment rest
  | some sep => if !validSegment (rest.take sep) then false else validTail (rest.drop (sep + 1))
termination_by rest.length
decreasing_by
  have := idxOf?_lt _h
  rw [List.length_drop]
  omega

/-- The loop of `Pattern.Match` over the tokens left: the text left of the subject, and whether its last token was
read. -/
def walkTokens : List Token → Bytes → Bool → Bool
  | [], _, exhausted => exhausted
  | .gt :: _, rest, _ => validTail rest
  | t :: ts, rest, exhausted =>
    if exhausted then false
    else
      let (seg, rest, exhausted) := match rest.idxOf? (chr '.') with
        | none => (rest, [], true)
        | some sep => (rest.take sep, rest.drop (sep + 1), false)
      if !validSegment seg then false
      else if t.isLiteral ∧ t ≠ .literal seg then false
      else walkTokens ts rest exhausted

/-- `Pattern.Match`; the zero pattern matches nothing. -/
def Pattern.walk (p : Pattern) (s : Bytes) : Bool := if p.tokens.isEmpty then false else walkTokens p.tokens s false

/-- `Set.Match`. -/
def walkAny (s : Bytes) : List Pattern → Bool
  | [] => false
  | p :: ps => if p.walk s then true else walkAny s ps

def PatternSet.walk (set : PatternSet) (s : Bytes) : Bool := walkAny s set.pats

/-- `literalPrefix`: the loop over the tokens left, behind `last` bytes of literal tokens and their dots. A wildcard in
front leaves nothing. -/
def literalPrefixFrom (raw : Bytes) : ℕ → List Token → Bytes
  | _, [] => raw
  | last, .literal lit :: ts => literalPrefixFrom raw (last + (lit.length + (str ".").length)) ts
  | last, .star :: _ => raw.take last
  | last, .gt :: _ => raw.take last

/-- `Prefix`. -/
def Pattern.literalPrefix (p : Pattern) : Bytes := literalPrefixFrom p.raw 0 p.tokens

def Pattern.minTokens (p : Pattern) : ℕ := p.tokens.length

/-! ## The reference -/

/-- The loop of the model's `Pattern.Match`: the pattern tokens left, against the subject's tokens from `si` on. -/
def referenceFrom (st : List Bytes) : ℕ → List Bytes → Bool
  | si, [] => si == st.length
  | si, tok :: pt =>
    if tok = str ">" then decide (si < st.length) && (st.drop si).all validSegment
    else match st[si]? with
      | none => false
      | some t =>
        if !validSegment t then false
        else if tok = str "*" then referenceFrom st (si + 1) pt
        else if tok ≠ t then false
        else referenceFrom st (si + 1) pt

/-- The model package's `Pattern(p).Match(s)`. -/
def reference (p s : Bytes) : Bool := referenceFrom (segments s) 0 (segments p)

/-! ## Both are the walk over tokens -/

/-- The text up to the next separator is the first token. -/
theorem segments_idxOf : segments s = match s.idxOf? (chr '.') with
    | none => [s]
    | some sep => s.take sep :: segments (s.drop (sep + 1)) := by
  induction s with
  | nil => rfl
  | cons c s ih =>
    by_cases hc : c = chr '.'
    · rw [hc, segments_dot, List.idxOf?_cons, if_pos (beq_self_eq_true _)]
      rfl
    · rw [List.idxOf?_cons, if_neg (by rwa [beq_iff_eq]), segments, if_neg hc, ih]
      cases s.idxOf? (chr '.') with
      | none => rfl
      | some sep => rfl

theorem validTail_eq (rest : Bytes) : validTail rest = (segments rest).all validSegment := by
  induction hn : rest.length using Nat.strong_induction_on generalizing rest with
  | _ n ih =>
    rw [validTail, segments_idxOf]
    split
    · rename_i h
      rw [h, List.all_cons, List.all_nil, Bool.and_true]
    · rename_i sep h
      have hlt := idxOf?_lt h
      rw [h, List.all_cons, ih _ (by rw [List.length_drop]; omega) _ rfl]
      cases validSegment (rest.take sep) with
      | false => rfl
      | true => rfl

/-- One token other than `>` against the subject's next. -/
theorem matchTokens_cons (ht : t ≠ .gt) (ts : List Token) (seg : Bytes) (segs : List Bytes) :
    matchTokens (t :: ts) (seg :: segs) = if !validSegment seg then false
      else if t.isLiteral ∧ t ≠ .literal seg then false else matchTokens ts segs := by
  cases t with
  | gt => exact absurd rfl ht
  | star =>
    rw [matchTokens]
    cases validSegment seg with
    | false => rfl
    | true => rfl
  | literal lit =>
    rw [matchTokens]
    cases validSegment seg with
    | false => rfl
    | true =>
      by_cases hl : seg = lit
      · simp [hl, Token.isLiteral]
      · simp [hl, Ne.symm hl, Token.isLiteral]

theorem walkTokens_cons (ht : t ≠ .gt) (ts : List Token) (rest : Bytes) :
    walkTokens (t :: ts) rest false = match rest.idxOf? (chr '.') with
      | none => if !validSegment rest then false else if t.isLiteral ∧ t ≠ .literal rest then false
        else walkTokens ts [] true
      | some sep => if !validSegment (rest.take sep) then false
        else if t.isLiteral ∧ t ≠ .literal (rest.take sep) then false
            else walkTokens ts (rest.drop (sep + 1)) false := by
  rw [walkTokens.eq_3 _ _ _ _ ht, if_neg Bool.false_ne_true]
  cases rest.idxOf? (chr '.') with
  | none => rfl
  | some sep => rfl

/-- The loop on a subject that has run out, and on one that has not. -/
theorem walkTokens_eq (ts : List Token) :
    walkTokens ts [] true = matchTokens ts [] ∧ ∀ rest, walkTokens ts rest false = matchTokens ts (segments rest) := by
  induction ts with
  | nil =>
    refine ⟨rfl, fun rest => ?_⟩
    exact (List.isEmpty_eq_false_iff.mpr (segments_ne_nil rest)).symm
  | cons t ts ih =>
    obtain ⟨hout, hrest⟩ := ih
    by_cases ht : t = .gt
    · subst ht
      refine ⟨?_, fun rest => ?_⟩
      · rw [walkTokens, matchTokens, validTail_eq]
        rfl
      · rw [walkTokens, matchTokens, validTail_eq, List.isEmpty_eq_false_iff.mpr (segments_ne_nil rest)]
        rfl
    · refine ⟨?_, fun rest => ?_⟩
      · cases t with
        | gt => exact absurd rfl ht
        | star => rfl
        | literal lit => rfl
      · rw [walkTokens_cons ht, segments_idxOf]
        cases rest.idxOf? (chr '.') with
        | none => simp only [matchTokens_cons ht, hout]
        | some sep => simp only [matchTokens_cons ht, hrest]

/-- The walk over bytes is the walk over tokens. -/
theorem walk_eq_match (hp : p.tokens ≠ []) (s : Bytes) : p.walk s = p.match s := by
  rw [Pattern.walk, List.isEmpty_eq_false_iff.mpr hp, if_neg Bool.false_ne_true, (walkTokens_eq p.tokens).2]
  rfl

/-- What a token of a pattern was compiled from. -/
theorem classify_text {last : Bool} (h : classify seg true last = .ok t) :
    (t = .star ∧ seg = str "*") ∨ (t = .gt ∧ seg = str ">" ∧ last = true) ∨
      (t = .literal seg ∧ validSegment seg = true) := by
  by_cases hl : t.isLiteral = true
  · exact .inr (.inr (classify_literal h hl))
  unfold classify at h
  split at h
  · cases h
  split at h
  · rename_i hstar
    cases h
    exact .inl ⟨rfl, hstar⟩
  split at h
  · rename_i hgt
    rw [if_neg (by decide)] at h
    split at h
    · cases h
    · rename_i hlast
      cases h
      exact .inr (.inl ⟨rfl, hgt, by simpa using hlast⟩)
  · dsimp only at h
    split at h
    · cases h
    · cases h
      exact absurd rfl hl

theorem parseSegments_cons (h : parseSegments w n (seg :: segs) = .ok ts) :
    ∃ t ts', classify seg w segs.isEmpty = .ok t ∧ parseSegments w (n + 1) segs = .ok ts' ∧ ts = t :: ts' := by
  rw [parseSegments, Lib.guard_eq_ok, Lib.bind_eq_ok] at h
  obtain ⟨-, t, ht, h⟩ := h
  obtain ⟨ts', hts, h⟩ := Lib.bind_eq_ok.mp h
  exact ⟨t, ts', ht, hts, (Lib.pure_eq_ok.mp h).symm⟩

/-- The reference compares the texts of the tokens, from where it stands in the subject. -/
theorem referenceFrom_eq (h : parseSegments true n pt = .ok ts) (st : List Bytes) {si : ℕ} (hsi : si ≤ st.length) :
    referenceFrom st si pt = matchTokens ts (st.drop si) := by
  induction pt generalizing n ts si with
  | nil =>
    cases h
    rw [referenceFrom, matchTokens, Bool.eq_iff_iff, beq_iff_eq, List.isEmpty_iff, List.drop_eq_nil_iff]
    omega
  | cons tok pt ih =>
    obtain ⟨t, ts, ht, hts, rfl⟩ := parseSegments_cons h
    rw [referenceFrom]
    by_cases hgt : t = .gt
    · obtain rfl : tok = str ">" := by
        rcases classify_text ht with ⟨h, -⟩ | ⟨-, h, -⟩ | ⟨h, -⟩
        · cases hgt.symm.trans h
        · exact h
        · cases hgt.symm.trans h
      rw [hgt, if_pos rfl, matchTokens]
      congr 1
      rw [Bool.eq_iff_iff, decide_eq_true_eq, Bool.not_eq_true', List.isEmpty_eq_false_iff, ne_eq, List.drop_eq_nil_iff]
      omega
    have htext : tok ≠ str ">" ∧ (t.isLiteral = false → tok = str "*") ∧
        (t.isLiteral = true → t = .literal tok ∧ tok ≠ str "*") := by
      rcases classify_text ht with ⟨rfl, rfl⟩ | ⟨h, -⟩ | ⟨rfl, hv⟩
      · exact ⟨by decide, fun _ => rfl, fun h => absurd h (by decide)⟩
      · exact absurd h hgt
      · have hne : tok ≠ str "*" ∧ tok ≠ str ">" := by
          simp only [validSegment, Bool.and_eq_true, decide_eq_true_eq] at hv
          exact ⟨hv.1.2, hv.2⟩
        exact ⟨hne.2, fun h => absurd h (by simp [Token.isLiteral]), fun _ => ⟨rfl, hne.1⟩⟩
    rw [if_neg htext.1]
    rcases Nat.lt_or_eq_of_le hsi with hlt | rfl
    · rw [List.getElem?_eq_getElem hlt, List.drop_eq_getElem_cons hlt, matchTokens_cons hgt, ih hts hlt]
      dsimp only
      congr 1
      cases hl : t.isLiteral with
      | false => rw [if_pos (htext.2.1 hl), if_neg (by simp)]
      | true =>
        obtain ⟨rfl, hne⟩ := htext.2.2 hl
        rw [if_neg hne]
        simp
    · rw [List.getElem?_eq_none le_rfl, List.drop_length]
      cases t with
      | gt => exact absurd rfl hgt
      | star => rfl
      | literal lit => rfl

theorem parsePattern_eq_ok : parsePattern raw = .ok p ↔ p.raw = raw ∧ parse raw true = .ok p.tokens := by
  simp only [parsePattern, Lib.bind_eq_ok, Lib.pure_eq_ok]
  constructor
  · rintro ⟨ts, h, rfl⟩
    exact ⟨rfl, h⟩
  · rintro ⟨rfl, h⟩
    exact ⟨p.tokens, h, rfl⟩

theorem parse_segments (h : parse s w = .ok ts) : parseSegments w 0 (segments s) = .ok ts := by
  simp only [parse, Lib.guard_eq_ok] at h
  exact h.2.2.2

theorem parse_ne_nil (h : parse s w = .ok ts) : ts ≠ [] := by
  have h := parse_segments h
  obtain ⟨seg, segs, hs⟩ := List.exists_cons_of_ne_nil (segments_ne_nil s)
  obtain ⟨t, ts', -, -, rfl⟩ := parseSegments_cons (hs ▸ h)
  exact List.cons_ne_nil _ _

/-- The reference is the walk over tokens of the compiled pattern. -/
theorem reference_eq_match (h : parsePattern raw = .ok p) (s : Bytes) : reference raw s = p.match s := by
  rw [reference, referenceFrom_eq (parse_segments (parsePattern_eq_ok.mp h).2) _ (Nat.zero_le _), List.drop_zero]
  rfl

theorem walk_eq_reference_of_parse (h : parsePattern raw = .ok p) (s : Bytes) : p.walk s = reference raw s := by
  rw [walk_eq_match (parse_ne_nil (parsePattern_eq_ok.mp h).2), reference_eq_match h]

theorem walkAny_iff {ps : List Pattern} : walkAny s ps = true ↔ ∃ p ∈ ps, p.walk s = true := by
  induction ps with
  | nil => simp [walkAny]
  | cons p ps ih =>
    rw [walkAny, List.exists_mem_cons_iff, ← ih]
    cases p.walk s with
    | false => simp
    | true => simp

/-- The matcher agrees with the reference on every text, and a set matches what one of its patterns does. -/
theorem walk_eq_reference :
    (∀ raw p, parsePattern raw = .ok p → ∀ s, p.walk s = reference raw s) ∧
      ∀ (set : PatternSet) s, set.walk s = true ↔ ∃ p ∈ set.pats, p.walk s = true :=
  ⟨fun _ _ h s => walk_eq_reference_of_parse h s, fun _ _ => walkAny_iff⟩

/-- A pattern with both wildcards, on a text with an empty token. -/
theorem walk_eq_reference_tail :
    parsePattern (str "*.>") = .ok ⟨str "*.>", [.star, .gt]⟩ ∧
      Pattern.walk ⟨str "*.>", [.star, .gt]⟩ (str "a..b") = reference (str "*.>") (str "a..b") := by
  have hp : parsePattern (str "*.>") = .ok ⟨str "*.>", [.star, .gt]⟩ := by decide
  exact ⟨hp, walk_eq_reference.1 _ _ hp _⟩

/-! ## Narrowing a scan -/

/-- Each token takes at least one token of the text; `>` is the last one. -/
theorem length_le_of_match (h : parseSegments true n pt = .ok ts) (hm : matchTokens ts st = true) :
    ts.length ≤ st.length := by
  induction pt generalizing n ts st with
  | nil =>
    cases h
    exact Nat.zero_le _
  | cons seg pt ih =>
    obtain ⟨t, ts, ht, hts, rfl⟩ := parseSegments_cons h
    cases st with
    | nil => cases t <;> cases hm
    | cons seg' st =>
      rcases classify_text ht with ⟨rfl, -⟩ | ⟨rfl, -, hlast⟩ | ⟨rfl, -⟩
      · exact Nat.succ_le_succ (ih hts (Bool.and_eq_true_iff.mp hm).2)
      · obtain rfl := List.isEmpty_iff.mp hlast
        cases hts
        exact Nat.succ_le_succ (Nat.zero_le _)
      · exact Nat.succ_le_succ (ih hts (Bool.and_eq_true_iff.mp hm).2)

theorem intercalate_cons {sep : Bytes} (h : segs ≠ []) :
    sep.intercalate (seg :: segs) = seg ++ (sep ++ sep.intercalate segs) := by
  obtain ⟨seg', segs, rfl⟩ := List.exists_cons_of_ne_nil h
  simp [List.intercalate]

/-- The literal start: the pattern's text behind `pre` has the tokens `pt`, the subject's behind it the tokens `st`. -/
theorem literalPrefixFrom_match (h : parseSegments true n pt = .ok ts) (hpt : pt ≠ []) (hm : matchTokens ts st = true)
    (pre : Bytes) :
    literalPrefixFrom (pre ++ (str ".").intercalate pt) pre.length ts <+: pre ++ (str ".").intercalate st := by
  induction pt generalizing n ts st pre with
  | nil => exact absurd rfl hpt
  | cons seg pt ih =>
    obtain ⟨t, ts, ht, hts, rfl⟩ := parseSegments_cons h
    rcases classify_text ht with ⟨rfl, -⟩ | ⟨rfl, -⟩ | ⟨rfl, -⟩
    · rw [literalPrefixFrom, List.take_left]
      exact List.prefix_append _ _
    · rw [literalPrefixFrom, List.take_left]
      exact List.prefix_append _ _
    · cases st with
      | nil => cases hm
      | cons seg' st =>
        rw [matchTokens, Bool.and_eq_true, Bool.and_eq_true, beq_iff_eq] at hm
        obtain ⟨⟨-, rfl⟩, hm⟩ := hm
        rw [literalPrefixFrom]
        cases pt with
        | nil =>
          -- the pattern ends here, so the subject does
          cases hts
          obtain rfl := List.isEmpty_iff.mp hm
          exact List.prefix_rfl
        | cons seg₂ pt =>
          have hst : st ≠ [] := by
            rintro rfl
            obtain ⟨t₂, ts₂, -, -, rfl⟩ := parseSegments_cons hts
            cases t₂ <;> cases hm
          have hih := ih hts (List.cons_ne_nil _ _) hm (pre ++ (seg' ++ str "."))
          rw [intercalate_cons (List.cons_ne_nil _ _), intercalate_cons hst]
          simpa [List.append_assoc] using hih

/-- Narrowing a scan by the literal start, by the token count, or by equality for a pattern without wildcards, loses no
match. -/
theorem walk_narrowed (h : parsePattern raw = .ok p) (s : Bytes) :
    (p.walk s = true → p.literalPrefix <+: s ∧ p.minTokens ≤ (segments s).length) ∧
      (p.isLiteral = true → (p.walk s = true ↔ s = raw)) := by
  obtain ⟨rfl, hp⟩ := parsePattern_eq_ok.mp h
  have hts := parse_segments hp
  rw [walk_eq_match (parse_ne_nil hp)]
  refine ⟨fun hm => ⟨?_, length_le_of_match hts hm⟩, fun hl => literal_match_iff hp hl s⟩
  have hpre := literalPrefixFrom_match hts (segments_ne_nil _) hm []
  rwa [List.nil_append, List.nil_append, show str "." = [chr '.'] from by decide, intercalate_segments,
    intercalate_segments] at hpre

/-- A literal token before a wildcard, on a text it matches. -/
theorem walk_narrowed_star :
    parsePattern (str "a.*") = .ok ⟨str "a.*", [.literal (str "a"), .star]⟩ ∧
      Pattern.literalPrefix ⟨str "a.*", [.literal (str "a"), .star]⟩ <+: str "a.b" := by
  have hp : parsePattern (str "a.*") = .ok ⟨str "a.*", [.literal (str "a"), .star]⟩ := by decide
  have hw : Pattern.walk ⟨str "a.*", [.literal (str "a"), .star]⟩ (str "a.b") = true := by
    rw [walk_eq_match (by decide)]
    decide
  exact ⟨hp, ((walk_narrowed hp _).1 hw).1⟩

end Messq.Subject

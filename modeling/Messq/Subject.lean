import Messq.Text
import Messq.Lib.Except

/-! # Subjects, patterns and names

The subject grammar: a subject is a dot-separated list of tokens, a pattern may hold `*` for one token and a
final `>` for one or more. Names of streams and consumers are restricted to an alphabet without `/`
(`validateName_no_slash`), which is what makes an ack token splittable. -/

namespace Messq.Subject

variable {s : Bytes} {raw segs seen : List Bytes} {n : ℕ}

def maxSubjectBytes : ℕ := 512
def maxTokens : ℕ := 32
def maxStreamNameBytes : ℕ := 64
def maxNewStreamNameBytes : ℕ := maxStreamNameBytes - (str ".dlq").length
def maxConsumerNameBytes : ℕ := 64

/-- The grammar's errors. -/
inductive Err
  | emptySubject | emptyToken | subjectTooLong | tooManyTokens | invalidUTF8 | controlChar
  | wildcardInToken | gtNotLast | wildcardNotAllowed | emptySet
  | nameEmpty | nameTooLong | nameCharset | nameDot
  deriving DecidableEq

/-- One compiled pattern token. -/
inductive Token
  | literal (lit : Bytes)
  | star
  | gt
  deriving DecidableEq

structure Pattern where
  raw : Bytes
  tokens : List Token
  deriving DecidableEq

variable {pats : List Pattern} {ts : List Token}

/-- A compiled disjunction. -/
structure PatternSet where
  pats : List Pattern
  deriving DecidableEq

variable {set : PatternSet}

/-- The text between the dots. -/
def segments : Bytes → List Bytes
  | [] => [[]]
  | c :: rest =>
    if c = chr '.' then [] :: segments rest
    else match segments rest with
      | seg :: segs => (c :: seg) :: segs
      | [] => [[c]]

/-- One token's text; `last` is whether it ends the pattern. -/
def classify (seg : Bytes) (wildcards last : Bool) : Except Err Token :=
  if seg = [] then .error .emptyToken
  else if seg = str "*" then (if wildcards then .ok .star else .error .wildcardNotAllowed)
  else if seg = str ">" then
    (if !wildcards then .error .wildcardNotAllowed else if !last then .error .gtNotLast else .ok .gt)
  else
    -- the first offending rune decides the error
    let bad : Option Err := (runes seg).findSome? fun r =>
      let r := r.getD runeError
      if r = 0x2A ∨ r = 0x3E then some (if wildcards then .wildcardInToken else .wildcardNotAllowed)
      else if r = 0x20 ∨ isControl r then some .controlChar else none
    match bad with
    | some e => .error e
    | none => .ok (.literal seg)

/-- The loop of `parse`: `n` tokens are compiled already. -/
def parseSegments (wildcards : Bool) : ℕ → List Bytes → Except Err (List Token)
  | _, [] => .ok []
  | n, seg :: segs =>
    if n = maxTokens then .error .tooManyTokens
    else do
      let t ← classify seg wildcards segs.isEmpty
      return t :: (← parseSegments wildcards (n + 1) segs)

def parse (s : Bytes) (wildcards : Bool) : Except Err (List Token) :=
  if s = [] then .error .emptySubject
  else if s.length > maxSubjectBytes then .error .subjectTooLong
  else if !validString s then .error .invalidUTF8
  else parseSegments wildcards 0 (segments s)

/-- `ParseSubject`: a publish target, without wildcards. -/
def parseSubject (s : Bytes) : Except Err Unit := do
  let _ ← parse s false

def parsePattern (s : Bytes) : Except Err Pattern := do
  return ⟨s, ← parse s true⟩

/-- The loop of `ParseSet`: a text seen before is skipped. -/
def parseSetFrom : List Bytes → List Bytes → Except Err (List Pattern)
  | _, [] => .ok []
  | seen, r :: rs =>
    if r ∈ seen then parseSetFrom seen rs
    else do
      let p ← parsePattern r
      return p :: (← parseSetFrom (r :: seen) rs)

def parseSet (raw : List Bytes) : Except Err PatternSet :=
  if raw = [] then .error .emptySet
  else do return ⟨← parseSetFrom [] raw⟩

/-- A token of a subject is non-empty and is no bare wildcard. -/
def validSegment (seg : Bytes) : Bool := seg ≠ [] && seg ≠ str "*" && seg ≠ str ">"

/-- `Pattern.Match` on the tokens left of the pattern and of the subject. -/
def matchTokens : List Token → List Bytes → Bool
  | [], segs => segs.isEmpty
  | .gt :: _, segs => !segs.isEmpty && segs.all validSegment
  | _ :: _, [] => false
  | .star :: ts, seg :: segs => validSegment seg && matchTokens ts segs
  | .literal lit :: ts, seg :: segs => validSegment seg && seg == lit && matchTokens ts segs

def Pattern.match (p : Pattern) (s : Bytes) : Bool := matchTokens p.tokens (segments s)

def PatternSet.match (ps : PatternSet) (s : Bytes) : Bool := ps.pats.any (·.match s)

def Token.isLiteral : Token → Bool
  | .literal _ => true
  | _ => false

/-- `Pattern.IsLiteral`: no wildcard, so matching is equality. -/
def Pattern.isLiteral (p : Pattern) : Bool := !p.tokens.isEmpty && p.tokens.all Token.isLiteral

/-- `Set.Strings`: the members' texts in compiled order. -/
def PatternSet.strings (ps : PatternSet) : List Bytes := ps.pats.map (·.raw)

/-! ## What a set accepts -/

theorem segments_ne_nil (s : Bytes) : segments s ≠ [] := by
  cases s with
  | nil => simp [segments]
  | cons c rest =>
    unfold segments
    split
    · simp
    · split <;> simp

/-- Only well-formed subjects are matched. -/
theorem matchTokens_valid (h : matchTokens ts segs = true) : segs.all validSegment = true := by
  induction ts generalizing segs with
  | nil =>
    rw [matchTokens, List.isEmpty_iff] at h
    rw [h]
    rfl
  | cons t ts ih =>
    cases t with
    | gt => exact (Bool.and_eq_true_iff.mp h).2
    | star =>
      cases segs with
      | nil => cases h
      | cons seg segs =>
        obtain ⟨hseg, hrest⟩ := Bool.and_eq_true_iff.mp h
        rw [List.all_cons, hseg, ih hrest]
        rfl
    | literal lit =>
      cases segs with
      | nil => cases h
      | cons seg segs =>
        obtain ⟨hseg, hrest⟩ := Bool.and_eq_true_iff.mp h
        rw [List.all_cons, (Bool.and_eq_true_iff.mp hseg).1, ih hrest]
        rfl

/-- One of the texts is a pattern that matches. -/
def Accepts (raw : List Bytes) (s : Bytes) : Prop :=
  ∃ r ∈ raw, ∃ ts, parse r true = .ok ts ∧ matchTokens ts (segments s) = true

theorem Accepts.valid (h : Accepts raw s) : (segments s).all validSegment = true := by
  obtain ⟨r, -, ts, -, hmatch⟩ := h
  exact matchTokens_valid hmatch

/-- The text of every subject that any pattern matches is matched by `>`. -/
theorem accepts_gt (h : (segments s).all validSegment = true) : Accepts [str ">"] s := by
  refine ⟨str ">", List.mem_cons_self, [.gt], by decide, ?_⟩
  rw [matchTokens, h, Bool.and_true, Bool.not_eq_true', List.isEmpty_eq_false_iff]
  exact segments_ne_nil s

/-- What was compiled: the patterns of the texts that were not seen before. -/
theorem mem_parseSetFrom (h : parseSetFrom seen raw = .ok pats) :
    (∀ p ∈ pats, p.raw ∈ raw ∧ parse p.raw true = .ok p.tokens) ∧
      ∀ r ∈ raw, r ∈ seen ∨ ∃ ts, parse r true = .ok ts ∧ ⟨r, ts⟩ ∈ pats := by
  induction raw generalizing seen pats with
  | nil =>
    cases h
    exact ⟨fun _ hp => absurd hp List.not_mem_nil, fun _ hr => absurd hr List.not_mem_nil⟩
  | cons r raw ih =>
    unfold parseSetFrom at h
    split at h
    · rename_i hseen
      obtain ⟨hp, hr⟩ := ih h
      refine ⟨fun p hm => ⟨List.mem_cons_of_mem _ (hp p hm).1, (hp p hm).2⟩, fun x hx => ?_⟩
      rcases List.mem_cons.mp hx with rfl | hx
      · exact .inl hseen
      · exact hr x hx
    · cases hts : parse r true with
      | error e => rw [parsePattern, hts] at h; cases h
      | ok ts =>
        cases hrest : parseSetFrom (r :: seen) raw with
        | error e => rw [parsePattern, hts, hrest] at h; cases h
        | ok ps =>
          rw [parsePattern, hts, hrest] at h
          cases h
          obtain ⟨hp, hr⟩ := ih hrest
          refine ⟨fun p hm => ?_, fun x hx => ?_⟩
          · rcases List.mem_cons.mp hm with rfl | hm
            · exact ⟨List.mem_cons_self, hts⟩
            · exact ⟨List.mem_cons_of_mem _ (hp p hm).1, (hp p hm).2⟩
          · rcases List.mem_cons.mp hx with rfl | hx
            · exact .inr ⟨ts, hts, List.mem_cons_self⟩
            · rcases hr x hx with hs | ⟨ts', hts', hm⟩
              · rcases List.mem_cons.mp hs with rfl | hs
                · exact .inr ⟨ts, hts, List.mem_cons_self⟩
                · exact .inl hs
              · exact .inr ⟨ts', hts', List.mem_cons_of_mem _ hm⟩

theorem parseSet_eq_ok : parseSet raw = .ok set ↔ raw ≠ [] ∧ parseSetFrom [] raw = .ok set.pats := by
  rw [parseSet, Lib.guard_eq_ok, Lib.bind_eq_ok]
  refine and_congr_right fun _ => ?_
  constructor
  · rintro ⟨pats, hp, h⟩
    rw [← Lib.pure_eq_ok.mp h]
    exact hp
  · exact fun h => ⟨set.pats, h, rfl⟩

/-- Texts that parse one by one compile. -/
theorem exists_parseSetFrom (h : ∀ r ∈ raw, ∃ ts, parse r true = .ok ts) (seen : List Bytes) :
    ∃ pats, parseSetFrom seen raw = .ok pats := by
  induction raw generalizing seen with
  | nil => exact ⟨[], rfl⟩
  | cons r raw ih =>
    have ih := ih fun x hx => h x (List.mem_cons_of_mem _ hx)
    unfold parseSetFrom
    split
    · exact ih seen
    · obtain ⟨ts, hts⟩ := h r List.mem_cons_self
      obtain ⟨ps, hps⟩ := ih (r :: seen)
      exact ⟨⟨r, ts⟩ :: ps, by rw [parsePattern, hts, hps]; rfl⟩

/-- What compiles, compiles as a sorted set. -/
theorem exists_parseSet_sortedSet (h : parseSet raw = .ok set) : ∃ set', parseSet (sortedSet raw) = .ok set' := by
  obtain ⟨hne, hpats⟩ := parseSet_eq_ok.mp h
  obtain ⟨pats, hsorted⟩ : ∃ pats, parseSetFrom [] (sortedSet raw) = .ok pats := by
    refine exists_parseSetFrom (fun r hr => ?_) []
    rcases (mem_parseSetFrom hpats).2 r (mem_sortedSet.mp hr) with hseen | ⟨ts, hts, -⟩
    · cases hseen
    · exact ⟨ts, hts⟩
  refine ⟨⟨pats⟩, parseSet_eq_ok.mpr ⟨fun hnil => ?_, hsorted⟩⟩
  obtain ⟨r, hr⟩ := List.exists_mem_of_ne_nil raw hne
  have hr := mem_sortedSet.mpr hr
  rw [hnil] at hr
  cases hr

/-- A compiled set matches what one of its texts does. -/
theorem match_iff (h : parseSet raw = .ok set) (s : Bytes) : set.match s = true ↔ Accepts raw s := by
  obtain ⟨hp, hr⟩ := mem_parseSetFrom (parseSet_eq_ok.mp h).2
  rw [PatternSet.match, List.any_eq_true]
  constructor
  · rintro ⟨p, hm, hmatch⟩
    exact ⟨p.raw, (hp p hm).1, p.tokens, (hp p hm).2, hmatch⟩
  · rintro ⟨r, hraw, ts, hts, hmatch⟩
    rcases hr r hraw with hs | ⟨ts', hts', hm⟩
    · cases hs
    · rw [hts] at hts'
      cases hts'
      exact ⟨⟨r, ts⟩, hm, hmatch⟩

/-! ## Literal patterns -/

theorem segments_dot (s : Bytes) : segments (chr '.' :: s) = [] :: segments s := by
  rw [segments, if_pos rfl]

theorem segments_cons {c : UInt8} (h : c ≠ chr '.') (s : Bytes) :
    ∃ seg segs, segments s = seg :: segs ∧ segments (c :: s) = (c :: seg) :: segs := by
  obtain ⟨seg, segs, hs⟩ := List.exists_cons_of_ne_nil (segments_ne_nil s)
  refine ⟨seg, segs, hs, ?_⟩
  rw [segments, if_neg h, hs]

theorem segments_eq_splitOn (s : Bytes) : segments s = s.splitOn (chr '.') := by
  induction s with
  | nil => rfl
  | cons c s ih =>
    rw [List.splitOn_cons_eq_if_modifyHead, ← ih]
    by_cases hc : c = chr '.'
    · rw [hc, segments_dot, if_pos (beq_self_eq_true _)]
    · obtain ⟨seg, segs, hs, hcs⟩ := segments_cons hc s
      rw [if_neg (by rwa [beq_iff_eq]), hcs, hs]
      rfl

theorem intercalate_segments (s : Bytes) : [chr '.'].intercalate (segments s) = s := by
  rw [segments_eq_splitOn, List.intercalate_splitOn]

/-- The text between the dots determines the text. -/
theorem segments_inj {t : Bytes} (h : segments s = segments t) : s = t := by
  rw [← intercalate_segments s, h, intercalate_segments]

/-- A token without a wildcard is its own text. -/
theorem classify_literal {seg : Bytes} {last : Bool} {t : Token} (h : classify seg true last = .ok t)
    (hl : t.isLiteral = true) : t = .literal seg ∧ validSegment seg = true := by
  unfold classify at h
  split at h
  · cases h
  rename_i hne
  split at h
  · cases h
    cases hl
  rename_i hstar
  split at h
  · simp only [Bool.not_true, Bool.false_eq_true, if_false] at h
    split at h
    · cases h
    · cases h
      cases hl
  rename_i hgt
  dsimp only at h
  split at h
  · cases h
  · cases h
    exact ⟨rfl, by simp [validSegment, hne, hstar, hgt]⟩

theorem parseSegments_literal (h : parseSegments true n segs = .ok ts) (hl : ts.all Token.isLiteral = true) :
    ts = segs.map .literal ∧ segs.all validSegment = true := by
  induction segs generalizing n ts with
  | nil =>
    cases h
    exact ⟨rfl, rfl⟩
  | cons seg segs ih =>
    rw [parseSegments, Lib.guard_eq_ok, Lib.bind_eq_ok] at h
    obtain ⟨-, t, ht, h⟩ := h
    obtain ⟨rest, hrest, h⟩ := Lib.bind_eq_ok.mp h
    obtain rfl := Lib.pure_eq_ok.mp h
    obtain ⟨htl, hrl⟩ := Bool.and_eq_true_iff.mp (List.all_cons ▸ hl)
    obtain ⟨rfl, hseg⟩ := classify_literal ht htl
    obtain ⟨rfl, hsegs⟩ := ih hrest hrl
    exact ⟨rfl, by rw [List.all_cons, hseg, hsegs]; rfl⟩

theorem matchTokens_literals (hv : segs.all validSegment = true) (segs' : List Bytes) :
    matchTokens (segs.map .literal) segs' = true ↔ segs' = segs := by
  induction segs generalizing segs' with
  | nil => rw [List.map_nil, matchTokens, List.isEmpty_iff]
  | cons seg segs ih =>
    obtain ⟨hseg, hsegs⟩ := Bool.and_eq_true_iff.mp (List.all_cons ▸ hv)
    cases segs' with
    | nil => exact ⟨fun h => absurd h Bool.false_ne_true, fun h => by cases h⟩
    | cons seg' segs' =>
      rw [List.map_cons, matchTokens, Bool.and_eq_true, Bool.and_eq_true, beq_iff_eq, ih hsegs, List.cons.injEq]
      constructor
      · exact fun h => ⟨h.1.2, h.2⟩
      · rintro ⟨rfl, rfl⟩
        exact ⟨⟨hseg, rfl⟩, rfl⟩

/-- A pattern without wildcards matches its own text and nothing else. -/
theorem literal_match_iff {p : Pattern} (hp : parse p.raw true = .ok p.tokens) (hl : p.isLiteral = true) (s : Bytes) :
    p.match s = true ↔ s = p.raw := by
  simp only [parse, Lib.guard_eq_ok] at hp
  obtain ⟨-, -, -, hp⟩ := hp
  obtain ⟨hts, hv⟩ := parseSegments_literal hp (Bool.and_eq_true_iff.mp hl).2
  rw [Pattern.match, hts, matchTokens_literals hv]
  exact ⟨segments_inj, congrArg segments⟩

/-- The texts of a compiled set are distinct. -/
theorem nodup_parseSetFrom (h : parseSetFrom seen raw = .ok pats) :
    (pats.map Pattern.raw).Nodup ∧ ∀ r ∈ pats.map Pattern.raw, r ∉ seen := by
  induction raw generalizing seen pats with
  | nil =>
    cases h
    exact ⟨List.nodup_nil, fun _ hr => absurd hr List.not_mem_nil⟩
  | cons r raw ih =>
    unfold parseSetFrom at h
    split at h
    · exact ih h
    rename_i hseen
    obtain ⟨p, hp, h⟩ := Lib.bind_eq_ok.mp h
    obtain ⟨ps, hps, h⟩ := Lib.bind_eq_ok.mp h
    obtain rfl := Lib.pure_eq_ok.mp h
    obtain ⟨ts, -, hr⟩ := Lib.bind_eq_ok.mp hp
    obtain rfl := Lib.pure_eq_ok.mp hr
    obtain ⟨hnodup, hfresh⟩ := ih hps
    refine ⟨List.nodup_cons.mpr ⟨fun hr => hfresh r hr List.mem_cons_self, hnodup⟩, fun x hx => ?_⟩
    rcases List.mem_cons.mp hx with rfl | hx
    · exact hseen
    · exact fun hs => hfresh x hx (List.mem_cons_of_mem _ hs)

/-- A set of literals matches its texts, which are told apart. -/
theorem literals_match (h : parseSet raw = .ok set) (hl : set.pats.all Pattern.isLiteral = true) :
    set.strings.Nodup ∧ ∀ s, set.match s = set.strings.contains s := by
  obtain ⟨-, h⟩ := parseSet_eq_ok.mp h
  refine ⟨(nodup_parseSetFrom h).1, fun s => Bool.eq_iff_iff.mpr ?_⟩
  rw [PatternSet.match, List.any_eq_true, List.contains_iff_mem, PatternSet.strings, List.mem_map]
  refine exists_congr fun p => and_congr_right fun hp => ?_
  rw [literal_match_iff ((mem_parseSetFrom h).1 p hp).2 (List.all_eq_true.mp hl p hp)]
  exact eq_comm

/-! ## Names -/

def nameByte (dots : Bool) (c : UInt8) : Bool :=
  let n := c.toNat
  (0x61 ≤ n && n ≤ 0x7A) || (0x41 ≤ n && n ≤ 0x5A) || (0x30 ≤ n && n ≤ 0x39) || c == chr '_' || c == chr '-' ||
    (dots && c == chr '.')

/-- `validateName`: rule S11. -/
def validateName (name : Bytes) (dots : Bool) (maxBytes : ℕ) : Except Err Unit :=
  if name = [] then .error .nameEmpty
  else if name.length > maxBytes then .error .nameTooLong
  else if !name.all (nameByte dots) then .error .nameCharset
  else if dots && (name.head? = some (chr '.') || name.getLast? = some (chr '.') ||
      name.tails.any (str "..").isPrefixOf) then .error .nameDot
  else .ok ()

def validateStreamName (name : Bytes) : Except Err Unit := validateName name true maxStreamNameBytes
def validateNewStreamName (name : Bytes) : Except Err Unit := validateName name true maxNewStreamNameBytes
def validateConsumerName (name : Bytes) : Except Err Unit := validateName name false maxConsumerNameBytes

/-- A valid name has no separator. -/
theorem validateName_no_slash {name : Bytes} {dots : Bool} (h : validateName name dots n = .ok ()) :
    chr '/' ∉ name := by
  simp only [validateName, Lib.guard_eq_ok] at h
  obtain ⟨-, -, hall, -, -⟩ := h
  intro hm
  have := List.all_eq_true.mp (by simpa using hall) _ hm
  cases dots <;> exact absurd this (by decide)

example : (parseSet [str "a.*.c", str "x.>"]).toOption.map
    (fun ps => [str "a.b.c", str "x", str "x.y.z", str "a..c"].map ps.match) = some [true, false, true, false] := by
  decide

end Messq.Subject

import Messq.Queue.Config

/-! # Ack tokens

A token is the text `stream/consumer/seq/attempt/generation`. Rendering is injective on slash-free names
(`Token.string_inj`), and every token `parseToken` returns is `Valid` (`parseToken_valid`), so its names are
slash-free and its numbers positive. -/

namespace Messq

def maxInt32 : ℤ := 2147483647
def maxInt64 : ℤ := 9223372036854775807

structure Token where
  stream : Bytes
  consumer : Bytes
  seq : ℤ
  attempt : ℤ
  generation : ℤ
  deriving DecidableEq

/-- `Token.String`. -/
def Token.string (t : Token) : Bytes :=
  t.stream ++ chr '/' :: (t.consumer ++ chr '/' :: (itoa t.seq ++ chr '/' :: (itoa t.attempt ++
    chr '/' :: itoa t.generation)))

/-- What `ParseToken` accepts: valid names and numbers in their range. -/
structure Token.Valid (t : Token) : Prop where
  stream : Subject.validateStreamName t.stream = .ok ()
  consumer : Subject.validateConsumerName t.consumer = .ok ()
  seq : 1 ≤ t.seq ∧ t.seq ≤ maxInt64
  attempt : 1 ≤ t.attempt ∧ t.attempt ≤ maxInt32
  generation : 1 ≤ t.generation ∧ t.generation ≤ maxInt32

/-- The text up to a separator determines where the separator is. -/
theorem cut_inj {a b r s : Bytes} (ha : chr '/' ∉ a) (hb : chr '/' ∉ b)
    (h : a ++ chr '/' :: r = b ++ chr '/' :: s) : a = b ∧ r = s := by
  induction a generalizing b with
  | nil => cases b with
    | nil => simpa using h
    | cons y b =>
      simp only [List.nil_append, List.cons_append, List.cons.injEq] at h
      exact absurd h.1 (fun e => hb (by simp [e]))
  | cons x a ih => cases b with
    | nil =>
      simp only [List.nil_append, List.cons_append, List.cons.injEq] at h
      exact absurd h.1 (fun e => ha (by simp [e]))
    | cons y b =>
      simp only [List.cons_append, List.cons.injEq] at h
      obtain ⟨rfl, hr⟩ := ih (fun hm => ha (by simp [hm])) (fun hm => hb (by simp [hm])) h.2
      exact ⟨by rw [h.1], hr⟩

/-- Tokens over slash-free names are told apart by their text. -/
theorem Token.string_inj {t u : Token} (hts : chr '/' ∉ t.stream) (htc : chr '/' ∉ t.consumer)
    (hus : chr '/' ∉ u.stream) (huc : chr '/' ∉ u.consumer) (h : t.string = u.string) : t = u := by
  obtain ⟨h1, h⟩ := cut_inj hts hus h
  obtain ⟨h2, h⟩ := cut_inj htc huc h
  obtain ⟨h3, h⟩ := cut_inj (itoa_no_slash _) (itoa_no_slash _) h
  obtain ⟨h4, h5⟩ := cut_inj (itoa_no_slash _) (itoa_no_slash _) h
  cases t; cases u
  simp only [Token.mk.injEq]
  exact ⟨h1, h2, itoa_injective h3, itoa_injective h4, itoa_injective h5⟩

/-! ## Parsing -/

inductive TokenErr
  | tooLong | empty | noConsumer | noSeq | noAttempt | noGeneration | badStream | badConsumer
  | emptyField | leadingZero | notDecimal | outOfRange
  deriving DecidableEq

def maxTokenLen : ℕ := 171

/-- `strings.Cut(s, "/")`. -/
def cut : Bytes → Option (Bytes × Bytes)
  | [] => none
  | c :: rest => if c = chr '/' then some ([], rest) else (cut rest).map fun p => (c :: p.1, p.2)

/-- `strconv.ParseUint(s, 10, 64)` on digits already read as `acc`. -/
def parseUint : ℕ → Bytes → Option ℕ
  | acc, [] => if acc < 2 ^ 64 then some acc else none
  | acc, c :: rest =>
    if 48 ≤ c.toNat ∧ c.toNat ≤ 57 then parseUint (acc * 10 + (c.toNat - 48)) rest else none

def parseUintField (field : Bytes) : Except TokenErr ℕ :=
  match field with
  | [] => .error .emptyField
  | c :: _ => if c = chr '0' then .error .leadingZero
    else match parseUint 0 field with
      | some v => .ok v
      | none => .error .notDecimal

/-- One numeric field: canonical, positive and at most `max`. -/
def parseBounded (field : Bytes) (max : ℤ) : Except TokenErr ℤ := do
  let v ← parseUintField field
  if v = 0 ∨ max < v then .error .outOfRange else .ok (v : ℤ)

def parseToken (s : Bytes) : Except TokenErr Token :=
  if s.length > maxTokenLen then .error .tooLong
  else if s = [] then .error .empty
  else do
    let (stream, rest) ← Lib.orError .noConsumer (cut s)
    let (consumer, rest) ← Lib.orError .noSeq (cut rest)
    let (seqStr, rest) ← Lib.orError .noAttempt (cut rest)
    let (attemptStr, genStr) ← Lib.orError .noGeneration (cut rest)
    if Subject.validateStreamName stream ≠ .ok () then .error .badStream
    else if Subject.validateConsumerName consumer ≠ .ok () then .error .badConsumer
    else do
      let seq ← parseBounded seqStr maxInt64
      let attempt ← parseBounded attemptStr maxInt32
      let generation ← parseBounded genStr maxInt32
      return ⟨stream, consumer, seq, attempt, generation⟩

theorem parseBounded_range {f : Bytes} {m v : ℤ} (h : parseBounded f m = .ok v) : 1 ≤ v ∧ v ≤ m := by
  simp only [parseBounded, Lib.bind_eq_ok, Lib.guard_eq_ok] at h
  obtain ⟨n, -, hn, hv⟩ := h
  cases hv
  omega

theorem parseToken_valid {s : Bytes} {t : Token} (h : parseToken s = .ok t) : t.Valid := by
  simp only [parseToken, Lib.guard_eq_ok, Lib.bind_eq_ok, Lib.pure_eq_ok] at h
  obtain ⟨-, -, ⟨stream, r1⟩, -, ⟨consumer, r2⟩, -, ⟨seqStr, r3⟩, -, ⟨attemptStr, genStr⟩, -, hs, hc,
    seq, hseq, attempt, hatt, generation, hgen, rfl⟩ := h
  exact ⟨not_not.mp hs, not_not.mp hc, parseBounded_range hseq, parseBounded_range hatt, parseBounded_range hgen⟩

example : (parseToken (str "orders.eu/billing/42/3/1")).toOption =
    some ⟨str "orders.eu", str "billing", 42, 3, 1⟩ := by decide

end Messq

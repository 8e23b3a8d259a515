import Messq.Utf8
import Messq.Lib.Except

/-! # Splitting a command line

`SplitWords` reads a line rune by rune, with the quotes and the backslash of a shell and none of its expansions. It
writes words rune by rune too, so each of them is valid UTF-8 whatever the line was (`splitWords_valid`): a byte that
belongs to no rune becomes U+FFFD, inside single quotes as well. Quoting is therefore undone for valid words only
(`splitWords_quoteAll_iff`). -/

namespace Messq.Exec

open Lib

variable {line w : Bytes} {ws : List Bytes} {off r : ℕ}

/-- `ErrUnterminatedQuote`. -/
def errUnterminatedQuote : Bytes := str "unterminated quote: input ended open"

/-- `ErrDanglingBackslash`. -/
def errDanglingBackslash (off : ℤ) : Bytes := str "dangling backslash: backslash at byte offset " ++ itoa off

/-- The variables of the loop. -/
structure Splitter where
  out : List Bytes := []
  cur : Bytes := []
  /-- Does a token exist, possibly empty? -/
  building : Bool := false
  inSingle : Bool := false
  inDouble : Bool := false
  escapedNext : Bool := false
  deriving DecidableEq

variable {s' : Splitter}

def Splitter.flush (s : Splitter) : Splitter :=
  if s.building then { s with out := s.out ++ [s.cur], cur := [], building := false } else s

def Splitter.writeRune (s : Splitter) (r : ℕ) : Splitter := { s with building := true, cur := s.cur ++ encodeRune r }

/-- The switch on the rune `r` at `off`; `last` says that the line ends after it. -/
def Splitter.step (s : Splitter) (off : ℕ) (last : Bool) (r : ℕ) : Except Bytes Splitter :=
  if s.escapedNext then .ok { s.writeRune r with escapedNext := false }
  else if !s.inSingle && r == 0x5C then
    if last then .error (errDanglingBackslash off) else .ok { s with escapedNext := true }
  else if !s.inSingle && !s.inDouble && isSpace r then .ok s.flush
  else if !s.inDouble && r == 0x27 then .ok { s with inSingle := !s.inSingle, building := true }
  else if !s.inSingle && r == 0x22 then .ok { s with inDouble := !s.inDouble, building := true }
  else .ok (s.writeRune r)

/-- The loop from byte `off` on, where the first `skip` bytes belong to a rune already read. -/
def Splitter.scan : ℕ → ℕ → Splitter → Bytes → Except Bytes Splitter
  | _, _, s, [] => .ok s
  | off, skip + 1, s, _ :: rest => scan (off + 1) skip s rest
  | off, 0, s, b :: rest =>
    let (r, size) := decodeRune (b :: rest)
    match s.step off (decide (rest.length < size)) (r.getD runeError) with
    | .error e => .error e
    | .ok s => scan (off + 1) (size - 1) s rest

def splitWords (line : Bytes) : Except Bytes (List Bytes) := do
  let s ← Splitter.scan 0 0 {} line
  if s.escapedNext then .error (errDanglingBackslash (line.length - 1))
  else if s.inSingle || s.inDouble then .error errUnterminatedQuote
  else .ok s.flush.out

/-! ## What is written -/

/-- Every word so far is valid UTF-8. -/
def Splitter.Valid (s : Splitter) : Prop := validString s.cur = true ∧ ∀ w ∈ s.out, validString w = true

theorem validString_writeRune (hw : validString w = true) (hr : IsRune r) : validString (w ++ encodeRune r) = true := by
  obtain ⟨rs, hrs, rfl⟩ := validString_iff.mp hw
  refine validString_iff.mpr ⟨rs ++ [r], fun x hx => ?_, by simp⟩
  rcases List.mem_append.mp hx with hx | hx
  · exact hrs x hx
  · rwa [List.mem_singleton.mp hx]

theorem Splitter.Valid.flush {s : Splitter} (h : s.Valid) : s.flush.Valid := by
  unfold Splitter.flush
  split
  · refine ⟨rfl, fun w hw => ?_⟩
    rcases List.mem_append.mp hw with hw | hw
    · exact h.2 w hw
    · rw [List.mem_singleton.mp hw]
      exact h.1
  · exact h

/-- **Step.** -/
theorem Splitter.Valid.step {s : Splitter} {last : Bool} (h : s.Valid) (hr : IsRune r)
    (hs : s.step off last r = .ok s') :
    s'.Valid := by
  have hw := validString_writeRune h.1 hr
  unfold Splitter.step at hs
  split_ifs at hs <;> cases hs
  exacts [⟨hw, h.2⟩, h, h.flush, h, h, ⟨hw, h.2⟩]

theorem Splitter.Valid.scan {s : Splitter} {skip : ℕ} (h : s.Valid) (hs : Splitter.scan off skip s line = .ok s') :
    s'.Valid := by
  induction line generalizing s off skip with
  | nil =>
    cases skip <;> cases hs <;> exact h
  | cons b rest ih =>
    cases skip with
    | succ skip => exact ih h hs
    | zero =>
      simp only [Splitter.scan] at hs
      split at hs
      · cases hs
      · rename_i s₁ hstep
        have hr : IsRune ((decodeRune (b :: rest)).1.getD runeError) := by
          cases hd : (decodeRune (b :: rest)).1 with
          | none => exact isRune_runeError
          | some r => exact (decodeRune_some hd).1
        exact ih (h.step hr hstep) hs

/-- **Words are valid**, whatever the line is. -/
theorem splitWords_valid (h : splitWords line = .ok ws) : ∀ w ∈ ws, validString w = true := by
  obtain ⟨s, hs, h⟩ := bind_eq_ok.mp h
  have hv : s.Valid := Splitter.Valid.scan ⟨rfl, fun _ hw => absurd hw List.not_mem_nil⟩ hs
  split_ifs at h
  cases h
  exact hv.flush.2

/-! ## Quoting -/

/-- A byte of a word in single quotes. -/
def quoteByte (b : UInt8) : Bytes := if b = chr '\'' then str "'\\''" else [b]

def quote (w : Bytes) : Bytes := chr '\'' :: w.flatMap quoteByte ++ [chr '\'']

def quoteAll (ws : List Bytes) : Bytes := [chr ' '].intercalate (ws.map quote)

/-- Reading `x` takes `s` to `s'`, whatever comes after. -/
def Splitter.Reads (s : Splitter) (x : Bytes) (s' : Splitter) : Prop :=
  ∀ off rest, Splitter.scan off 0 s (x ++ rest) = Splitter.scan (off + x.length) 0 s' rest

section Reads

variable {s s₁ s₂ : Splitter} {x y : Bytes}

theorem Splitter.Reads.append (h : s.Reads x s₁) (h' : s₁.Reads y s₂) : s.Reads (x ++ y) s₂ := by
  intro off rest
  rw [List.append_assoc, h, h', List.length_append, Nat.add_assoc]

theorem Splitter.scan_skip (off : ℕ) (rest : Bytes) :
    Splitter.scan off x.length s (x ++ rest) = Splitter.scan (off + x.length) 0 s rest := by
  induction x generalizing off with
  | nil => rfl
  | cons b x ih =>
    rw [List.length_cons, List.cons_append, Splitter.scan, ih, Nat.add_right_comm, Nat.add_assoc]

theorem Splitter.reads_rune (hr : IsRune r) (h : ∀ off last, s.step off last r = .ok s₁) :
    s.Reads (encodeRune r) s₁ := by
  intro off rest
  have hdec := decodeRune_encodeRune hr rest
  obtain ⟨b, t, he⟩ := List.exists_cons_of_ne_nil (encodeRune_ne_nil r)
  rw [he, List.cons_append] at hdec ⊢
  rw [Splitter.scan, hdec]
  simp only [Option.getD_some, h, List.length_cons, Nat.add_sub_cancel, Splitter.scan_skip]
  rw [Nat.add_right_comm, Nat.add_assoc]

end Reads

/-- Inside the quotes, after the first bytes of a word. -/
def quoting (out : List Bytes) (cur : Bytes) : Splitter := { out, cur, building := true, inSingle := true }

theorem reads_quoteByte (hr : IsRune r) (out : List Bytes) (cur : Bytes) :
    (quoting out cur).Reads ((encodeRune r).flatMap quoteByte) (quoting out (cur ++ encodeRune r)) := by
  by_cases hq : r = 0x27
  · -- the quotes close, an escaped quote is written, and they open again
    subst hq
    exact fun off rest => rfl
  · have hself : ∀ b ∈ encodeRune r, quoteByte b = [b] := by
      intro b hb
      refine if_neg ?_
      rintro rfl
      exact hq (mem_encodeRune_ascii hr (by decide) hb).symm
    rw [List.flatMap_congr hself, List.flatMap_singleton']
    exact Splitter.reads_rune hr fun off last => by simp [Splitter.step, quoting, hq, Splitter.writeRune]

theorem reads_quoted {rs : List ℕ} (h : ∀ r ∈ rs, IsRune r) (out : List Bytes) (cur : Bytes) :
    (quoting out cur).Reads ((encodeRunes rs).flatMap quoteByte) (quoting out (cur ++ encodeRunes rs)) := by
  induction rs generalizing cur with
  | nil => exact fun off rest => by simp
  | cons r rs ih =>
    obtain ⟨hr, hrs⟩ := List.forall_mem_cons.mp h
    rw [encodeRunes_cons, List.flatMap_append, ← List.append_assoc]
    exact (reads_quoteByte hr out cur).append (ih hrs _)

theorem reads_quote (h : validString w = true) (out : List Bytes) :
    Splitter.Reads { out } (quote w) { out, cur := w, building := true } := by
  obtain ⟨rs, hrs, rfl⟩ := validString_iff.mp h
  have hopen : Splitter.Reads { out } [chr '\''] (quoting out []) := fun off rest => rfl
  have hclose : (quoting out (encodeRunes rs)).Reads [chr '\''] { out, cur := encodeRunes rs, building := true } :=
    fun off rest => rfl
  exact (hopen.append (reads_quoted hrs out [])).append hclose

/-- The words have been read, the last one perhaps not yet flushed. -/
structure Splitter.Done (s : Splitter) (ws : List Bytes) : Prop where
  escaped : s.escapedNext = false
  single : s.inSingle = false
  double : s.inDouble = false
  words : s.flush.out = ws

theorem reads_quoteAll (h : ∀ w ∈ ws, validString w = true) (out : List Bytes) :
    ∃ s, Splitter.Reads { out } (quoteAll ws) s ∧ s.Done (out ++ ws) := by
  induction ws generalizing out with
  | nil => exact ⟨{ out }, fun off rest => rfl, rfl, rfl, rfl, (List.append_nil out).symm⟩
  | cons w ws ih =>
    obtain ⟨hw, hws⟩ := List.forall_mem_cons.mp h
    have hquote := reads_quote hw out
    cases ws with
    | nil => exact ⟨_, by simpa [quoteAll] using hquote, rfl, rfl, rfl, rfl⟩
    | cons w' ws =>
      obtain ⟨s, hs, hdone⟩ := ih hws (out ++ [w])
      have hspace : Splitter.Reads { out, cur := w, building := true } [chr ' '] { out := out ++ [w] } :=
        fun off rest => rfl
      refine ⟨s, ?_, by simpa using hdone⟩
      have heq : quoteAll (w :: w' :: ws) = quote w ++ [chr ' '] ++ quoteAll (w' :: ws) := by
        simp only [quoteAll, List.map_cons, List.intercalate_cons_cons]
      rw [heq]
      exact (hquote.append hspace).append hs

/-- Quoting is undone exactly where the words are valid UTF-8. -/
theorem splitWords_quoteAll_iff (ws : List Bytes) :
    splitWords (quoteAll ws) = .ok ws ↔ ∀ w ∈ ws, validString w = true := by
  refine ⟨splitWords_valid, fun h => ?_⟩
  obtain ⟨s, hreads, hdone⟩ := reads_quoteAll h []
  have hscan := hreads 0 []
  rw [List.append_nil] at hscan
  rw [splitWords, hscan]
  show (if s.escapedNext then _ else if s.inSingle || s.inDouble then _ else _) = _
  rw [hdone.escaped, hdone.single, hdone.double, hdone.words]
  rfl

/-- A word of one byte that is no rune comes back as U+FFFD. -/
theorem invalid_byte_replaced : splitWords (quoteAll [[0xFF]]) = .ok [[0xEF, 0xBF, 0xBD]] := by decide

end Messq.Exec

import Messq.Text

/-! # JSON texts

The part of `encoding/json` that texts are written and read with. `jsonString` is how `json.Marshal` writes a string;
`parseJSON` is what a text decodes to, and none where `json.Valid` refuses it. What a writer produces is put together
from texts that read as values (`Reads`): a string (`reads_string`), an object (`reads_object`). -/

namespace Messq

variable {rest t : Bytes} {a b c d : UInt8} {fuel n r room : ℕ}

/-! ## Writing -/

/-- One rune of a JSON string, as `encoding/json` writes it with HTML escaping on. -/
def jsonRune : Option ℕ → Bytes
  | none => str "\\ufffd"
  | some r =>
    if r = 0x22 ∨ r = 0x5C then [0x5C, r.toUInt8]
    else if r = 0x08 then str "\\b" else if r = 0x0C then str "\\f" else if r = 0x0A then str "\\n"
    else if r = 0x0D then str "\\r" else if r = 0x09 then str "\\t"
    else if r < 0x20 ∨ r = 0x3C ∨ r = 0x3E ∨ r = 0x26 ∨ r = 0x2028 ∨ r = 0x2029 then str "\\u" ++ hex 4 r
    else encodeRune r

def jsonString (s : Bytes) : Bytes := [0x22] ++ (runes s).flatMap jsonRune ++ [0x22]

/-- The texts with commas between them. -/
def jsonList (ts : List Bytes) : Bytes := (ts.intersperse [chr ',']).flatten

def jsonObject (ms : List (Bytes × Bytes)) : Bytes :=
  [0x7B] ++ jsonList (ms.map fun m => jsonString m.1 ++ [chr ':'] ++ m.2) ++ [0x7D]

/-- A string after a round trip through JSON: every invalid byte has become U+FFFD. -/
def coerceUTF8 (s : Bytes) : Bytes := (runes s).flatMap fun r => encodeRune (r.getD runeError)

/-! ## Reading -/

/-- A decoded value; a number is its text. -/
inductive Json
  | null
  | bool (b : Bool)
  | number (text : Bytes)
  | string (s : Bytes)
  | array (xs : List Json)
  | object (ms : List (Bytes × Json))

def hexDigit (c : UInt8) : Option ℕ :=
  let n := c.toNat
  if 0x30 ≤ n ∧ n ≤ 0x39 then some (n - 0x30)
  else if 0x61 ≤ n ∧ n ≤ 0x66 then some (n - 0x57)
  else if 0x41 ≤ n ∧ n ≤ 0x46 then some (n - 0x37)
  else none

/-- `getu4`: the code unit of `\uXXXX`. -/
def codeUnit : Bytes → Option ℕ
  | 0x5C :: 0x75 :: a :: b :: c :: d :: _ =>
    match hexDigit a, hexDigit b, hexDigit c, hexDigit d with
    | some a, some b, some c, some d => some (a * 4096 + b * 256 + c * 16 + d)
    | _, _, _, _ => none
  | _ => none

/-- `\uXXXX` at the head of the text: what it stands for, and how many bytes it takes. A surrogate stands for U+FFFD
unless its pair follows. -/
def unescapeUnit (bs : Bytes) : Option (Bytes × ℕ) :=
  match codeUnit bs with
  | none => none
  | some u =>
    if 0xD800 ≤ u ∧ u < 0xDC00 then
      match codeUnit (bs.drop 6) with
      | some u' =>
        if 0xDC00 ≤ u' ∧ u' < 0xE000 then some (encodeRune ((u - 0xD800) * 1024 + (u' - 0xDC00) + 0x10000), 12)
        else some (encodeRune runeError, 6)
      | none => some (encodeRune runeError, 6)
    else if 0xDC00 ≤ u ∧ u < 0xE000 then some (encodeRune runeError, 6)
    else some (encodeRune u, 6)

/-- An escape at the head of the text. -/
def unescape : Bytes → Option (Bytes × ℕ)
  | 0x5C :: 0x22 :: _ => some ([0x22], 2)
  | 0x5C :: 0x5C :: _ => some ([0x5C], 2)
  | 0x5C :: 0x2F :: _ => some ([0x2F], 2)
  | 0x5C :: 0x62 :: _ => some ([0x08], 2)
  | 0x5C :: 0x66 :: _ => some ([0x0C], 2)
  | 0x5C :: 0x6E :: _ => some ([0x0A], 2)
  | 0x5C :: 0x72 :: _ => some ([0x0D], 2)
  | 0x5C :: 0x74 :: _ => some ([0x09], 2)
  | bs => unescapeUnit bs

/-- The rest of a string literal, up to its closing quote; the first `skip` bytes are read already. -/
def unquote : ℕ → Bytes → Option (Bytes × Bytes)
  | _, [] => none
  | skip + 1, _ :: rest => unquote skip rest
  | 0, b :: rest =>
    if b = 0x22 then some ([], rest)
    else if b = 0x5C then
      match unescape (b :: rest) with
      | none => none
      | some (out, n) => (unquote (n - 1) rest).map fun p => (out ++ p.1, p.2)
    else if b.toNat < 0x20 then none
    else (unquote ((decodeRune (b :: rest)).2 - 1) rest).map fun p =>
      (encodeRune ((decodeRune (b :: rest)).1.getD runeError) ++ p.1, p.2)

def jsonSpace (b : UInt8) : Bool := b == 0x20 || b == 0x09 || b == 0x0D || b == 0x0A

def skipSpace (bs : Bytes) : Bytes := bs.dropWhile jsonSpace

def isDigit (b : UInt8) : Bool := 0x30 ≤ b.toNat && b.toNat ≤ 0x39

/-- A byte a number may hold; none of them may follow a value. -/
def numberByte (b : UInt8) : Bool := isDigit b || (str "+-.eE").contains b

/-- The fraction and the exponent of a number. -/
def validExponent : Bytes → Bool
  | [] => true
  | e :: rest => (e == chr 'e' || e == chr 'E') &&
    (let digits := match rest with
      | s :: ds => if s == chr '+' || s == chr '-' then ds else s :: ds
      | [] => []
    !digits.isEmpty && digits.all isDigit)

def validFraction : Bytes → Bool
  | 0x2E :: rest => !(rest.takeWhile isDigit).isEmpty && validExponent (rest.dropWhile isDigit)
  | bs => validExponent bs

def validMagnitude : Bytes → Bool
  | 0x30 :: rest => validFraction rest
  | b :: rest => isDigit b && validFraction (rest.dropWhile isDigit)
  | [] => false

def validNumber : Bytes → Bool
  | 0x2D :: rest => validMagnitude rest
  | bs => validMagnitude bs

/-- `text` at the head of the bytes. -/
def literal (text : Bytes) (v : Json) (bs : Bytes) : Option (Json × Bytes) :=
  if text.isPrefixOf bs then some (v, bs.drop text.length) else none

mutual

/-- A value at the head of the text and what follows it; `room` is how much deeper it may be nested. Every call below
reads at least one byte. -/
def parseValue : ℕ → ℕ → Bytes → Option (Json × Bytes)
  | 0, _, _ => none
  | fuel + 1, room, bs =>
    match skipSpace bs with
    | [] => none
    | b :: rest =>
      if b = 0x22 then (unquote 0 rest).map fun p => (.string p.1, p.2)
      else if b = 0x5B then
        match room, skipSpace rest with
        | 0, _ => none
        | _ + 1, 0x5D :: rest => some (.array [], rest)
        | room + 1, rest => (parseElements fuel room rest).map fun p => (.array p.1, p.2)
      else if b = 0x7B then
        match room, skipSpace rest with
        | 0, _ => none
        | _ + 1, 0x7D :: rest => some (.object [], rest)
        | room + 1, rest => (parseMembers fuel room rest).map fun p => (.object p.1, p.2)
      else if b = chr 't' then literal (str "true") (.bool true) (b :: rest)
      else if b = chr 'f' then literal (str "false") (.bool false) (b :: rest)
      else if b = chr 'n' then literal (str "null") .null (b :: rest)
      else
        let text := (b :: rest).takeWhile numberByte
        if validNumber text then some (.number text, (b :: rest).dropWhile numberByte) else none

/-- The elements of an array, at least one. -/
def parseElements : ℕ → ℕ → Bytes → Option (List Json × Bytes)
  | 0, _, _ => none
  | fuel + 1, room, bs =>
    match parseValue fuel room bs with
    | none => none
    | some (v, rest) =>
      match skipSpace rest with
      | 0x2C :: rest => (parseElements fuel room rest).map fun p => (v :: p.1, p.2)
      | 0x5D :: rest => some ([v], rest)
      | _ => none

/-- The members of an object, at least one. -/
def parseMembers : ℕ → ℕ → Bytes → Option (List (Bytes × Json) × Bytes)
  | 0, _, _ => none
  | fuel + 1, room, bs =>
    match skipSpace bs with
    | 0x22 :: rest =>
      match unquote 0 rest with
      | none => none
      | some (key, rest) =>
        match skipSpace rest with
        | 0x3A :: rest =>
          match parseValue fuel room rest with
          | none => none
          | some (v, rest) =>
            match skipSpace rest with
            | 0x2C :: rest => (parseMembers fuel room rest).map fun p => ((key, v) :: p.1, p.2)
            | 0x7D :: rest => some ([(key, v)], rest)
            | _ => none
        | _ => none
    | _ => none

end

def maxNestingDepth : ℕ := 10000

/-- The value of a whole text. -/
def parseJSON (bs : Bytes) : Option Json :=
  match parseValue (bs.length + 1) maxNestingDepth bs with
  | some (v, rest) => if skipSpace rest = [] then some v else none
  | none => none

/-! ## Strings -/

theorem unquote_skip (bs rest : Bytes) : unquote bs.length (bs ++ rest) = unquote 0 rest := by
  induction bs with
  | nil => rfl
  | cons b bs ih => exact ih

/-- An escape that is written out. -/
theorem unquote_escape {out : Bytes} (h : unescape (0x5C :: (t ++ rest)) = some (out, t.length + 1)) :
    unquote 0 (0x5C :: (t ++ rest)) = (unquote 0 rest).map fun p => (out ++ p.1, p.2) := by
  rw [unquote, if_neg (by decide), if_pos rfl, h]
  simp only [Nat.add_sub_cancel, unquote_skip]

theorem encodeRune_ne_nil (r : ℕ) : encodeRune r ≠ [] := by
  unfold encodeRune
  split_ifs <;> simp

/-- The first byte of an encoded rune is the rune, or no ASCII. -/
theorem encodeRune_head (h : IsRune r) (he : encodeRune r = b :: t) : b.toNat = r ∨ 0x80 ≤ b.toNat := by
  unfold IsRune at h
  unfold encodeRune at he
  split_ifs at he <;> obtain ⟨rfl, -⟩ := List.cons.inj he
  · exact .inl (toUInt8_toNat (by omega))
  · exact .inr (by rw [toUInt8_toNat (by omega)]; omega)
  · exact .inr (by rw [toUInt8_toNat (by omega)]; omega)
  · exact .inr (by rw [toUInt8_toNat (by omega)]; omega)

/-- A rune that needs no escape. -/
theorem unquote_rune (h : IsRune r) (hlo : 0x20 ≤ r) (hq : r ≠ 0x22) (hb : r ≠ 0x5C) (rest : Bytes) :
    unquote 0 (encodeRune r ++ rest) = (unquote 0 rest).map fun p => (encodeRune r ++ p.1, p.2) := by
  have hdec := decodeRune_encodeRune h rest
  cases he : encodeRune r with
  | nil => exact absurd he (encodeRune_ne_nil r)
  | cons b t =>
    rw [he] at hdec
    rw [List.cons_append] at hdec ⊢
    have hhead := encodeRune_head h he
    have h22 : b ≠ 0x22 := by rintro rfl; exact hhead.elim (fun h => hq h.symm) (by decide)
    have h5c : b ≠ 0x5C := by rintro rfl; exact hhead.elim (fun h => hb h.symm) (by decide)
    rw [unquote, if_neg h22, if_neg h5c, if_neg (by omega), hdec]
    simp only [List.length_cons, Nat.add_sub_cancel, unquote_skip, Option.getD_some, he]

theorem codeUnit_append (rest : Bytes) :
    codeUnit (0x5C :: 0x75 :: a :: b :: c :: d :: rest) = codeUnit [0x5C, 0x75, a, b, c, d] := rfl

/-- `\uXXXX` of a rune that is no surrogate. -/
theorem unescape_codeUnit {u : ℕ} (h : codeUnit [0x5C, 0x75, a, b, c, d] = some u) (hu : u < 0xD800 ∨ 0xE000 ≤ u)
    (rest : Bytes) : unescape (0x5C :: 0x75 :: a :: b :: c :: d :: rest) = some (encodeRune u, 6) := by
  show unescapeUnit _ = _
  rw [unescapeUnit, codeUnit_append, h]
  show (if _ then _ else if _ then _ else _) = _
  rw [if_neg (by omega), if_neg (by omega)]

/-- The runes `json.Marshal` escapes by number. -/
def numbered (r : ℕ) : Bool := r < 0x20 || [0x3C, 0x3E, 0x26, 0x2028, 0x2029].contains r

theorem codeUnit_hex (h : numbered r = true) :
    ∃ a b c d, hex 4 r = [a, b, c, d] ∧ codeUnit [0x5C, 0x75, a, b, c, d] = some r := by
  have hall : ∀ r ∈ List.range 0x20 ++ [0x3C, 0x3E, 0x26, 0x2028, 0x2029],
      (hex 4 r).length = 4 ∧ codeUnit ([0x5C, 0x75] ++ hex 4 r) = some r := by decide
  have hmem : r ∈ List.range 0x20 ++ [0x3C, 0x3E, 0x26, 0x2028, 0x2029] := by
    simp only [numbered, Bool.or_eq_true, decide_eq_true_eq, List.contains_iff_mem] at h
    exact List.mem_append.mpr (h.imp List.mem_range.mpr id)
  obtain ⟨hlen, hcode⟩ := hall r hmem
  obtain ⟨a, b, c, d, heq⟩ := List.length_eq_four.mp hlen
  exact ⟨a, b, c, d, heq, heq ▸ hcode⟩

/-- What `json.Marshal` writes for a rune reads back as the rune. -/
theorem unquote_jsonRune {r : Option ℕ} (h : ∀ n ∈ r, IsRune n) (rest : Bytes) :
    unquote 0 (jsonRune r ++ rest) = (unquote 0 rest).map fun p => (encodeRune (r.getD runeError) ++ p.1, p.2) := by
  cases r with
  | none => exact unquote_escape (t := str "ufffd") (unescape_codeUnit (by decide) (by decide) rest)
  | some r =>
    have hr := h r rfl
    simp only [jsonRune, Option.getD_some]
    split_ifs with h₁ h₂ h₃ h₄ h₅ h₆ h₇
    · rcases h₁ with rfl | rfl
      · exact unquote_escape (t := [0x22]) rfl
      · exact unquote_escape (t := [0x5C]) rfl
    · subst h₂; exact unquote_escape (t := [0x62]) rfl
    · subst h₃; exact unquote_escape (t := [0x66]) rfl
    · subst h₄; exact unquote_escape (t := [0x6E]) rfl
    · subst h₅; exact unquote_escape (t := [0x72]) rfl
    · subst h₆; exact unquote_escape (t := [0x74]) rfl
    · obtain ⟨a, b, c, d, hhex, hcode⟩ := codeUnit_hex (r := r) (by simp [numbered]; omega)
      rw [hhex]
      exact unquote_escape (t := [0x75, a, b, c, d]) (unescape_codeUnit hcode (by omega) rest)
    · exact unquote_rune hr (by omega) (by omega) (by omega) rest

theorem unquote_jsonRunes {rs : List (Option ℕ)} (h : ∀ r ∈ rs, ∀ n ∈ r, IsRune n) (rest : Bytes) :
    unquote 0 (rs.flatMap jsonRune ++ 0x22 :: rest) = some
      (rs.flatMap fun r => encodeRune (r.getD runeError), rest) := by
  induction rs with
  | nil => rfl
  | cons r rs ih =>
    obtain ⟨hr, hrs⟩ := List.forall_mem_cons.mp h
    rw [List.flatMap_cons, List.append_assoc, unquote_jsonRune hr, ih hrs]
    rfl

theorem unquote_jsonString (s rest : Bytes) :
    unquote 0 ((runes s).flatMap jsonRune ++ 0x22 :: rest) = some (coerceUTF8 s, rest) :=
  unquote_jsonRunes (fun _ hr _ hn => runesFrom_isRune (Option.mem_def.mp hn ▸ hr)) rest

/-! ## Values -/

/-- A value is followed by the end, a comma or a closing bracket. -/
def Stops (rest : Bytes) : Prop := ∀ b ∈ rest.head?, b = 0x2C ∨ b = 0x5D ∨ b = 0x7D

theorem stops_cons (h : b = 0x2C ∨ b = 0x5D ∨ b = 0x7D) (rest : Bytes) : Stops (b :: rest) :=
  fun _ hb => Option.some.inj hb ▸ h

/-- The text reads as the value, where it may be nested `n` levels deep. -/
def Reads (text : Bytes) (n : ℕ) (v : Json) : Prop :=
  ∀ fuel room rest, text.length ≤ fuel → n ≤ room → Stops rest → parseValue fuel room (text ++ rest) = some (v, rest)

theorem skipSpace_cons (h : jsonSpace b = false) (rest : Bytes) : skipSpace (b :: rest) = b :: rest := by
  rw [skipSpace, List.dropWhile_cons, h]
  rfl

theorem reads_string (s : Bytes) (n : ℕ) : Reads (jsonString s) n (.string (coerceUTF8 s)) := by
  intro fuel room rest hf _ _
  cases fuel with
  | zero => simp [jsonString] at hf
  | succ fuel =>
    have htext : jsonString s ++ rest = 0x22 :: ((runes s).flatMap jsonRune ++ 0x22 :: rest) := by
      simp [jsonString]
    rw [htext, parseValue, skipSpace_cons rfl]
    simp only [if_pos, unquote_jsonString, Option.map_some]

theorem jsonList_cons_cons (t u : Bytes) (ts : List Bytes) :
    jsonList (t :: u :: ts) = t ++ chr ',' :: jsonList (u :: ts) := by
  simp [jsonList]

/-- A member of an object as it is written, with the value its text reads as. -/
structure Member where
  key : Bytes
  text : Bytes
  value : Json

def Member.written (m : Member) : Bytes := jsonString m.key ++ [chr ':'] ++ m.text

theorem Member.length_text (m : Member) : m.text.length + 1 ≤ m.written.length := by
  simp only [Member.written, List.length_append, List.length_cons]
  omega

/-- The key, the colon and the value of a member. -/
theorem parseMembers_member {m : Member} (h : Reads m.text n m.value) (hf : m.text.length ≤ fuel) (hr : n ≤ room)
    (hs : Stops rest) :
    parseMembers (fuel + 1) room (m.written ++ rest) = match skipSpace rest with
      | 0x2C :: rest => (parseMembers fuel room rest).map fun p => ((coerceUTF8 m.key, m.value) :: p.1, p.2)
      | 0x7D :: rest => some ([(coerceUTF8 m.key, m.value)], rest)
      | _ => none := by
  have htext : m.written ++ rest =
      0x22 :: ((runes m.key).flatMap jsonRune ++ 0x22 :: (chr ':' :: (m.text ++ rest))) := by
    simp [Member.written, jsonString]
  rw [htext, parseMembers, skipSpace_cons rfl]
  simp only [unquote_jsonString]
  rw [skipSpace_cons (by decide)]
  show (match parseValue fuel room (m.text ++ rest) with | none => none | some (v, rest) => _) = _
  rw [h fuel room rest hf hr hs]

theorem parseMembers_written {m : Member} {ms : List Member} (h : ∀ x ∈ m :: ms, Reads x.text n x.value) (rest : Bytes)
    (hf : (jsonList ((m :: ms).map Member.written)).length ≤ fuel) (hr : n ≤ room) :
    parseMembers fuel room (jsonList ((m :: ms).map Member.written) ++ 0x7D :: rest) =
      some ((m :: ms).map fun x => (coerceUTF8 x.key, x.value), rest) := by
  have hlen := m.length_text
  induction ms generalizing m fuel with
  | nil =>
    have htext : jsonList ([m].map Member.written) = m.written := by simp [jsonList]
    rw [htext] at hf ⊢
    obtain ⟨fuel, rfl⟩ : ∃ f, fuel = f + 1 := ⟨fuel - 1, by omega⟩
    rw [parseMembers_member (h m List.mem_cons_self) (by omega) hr (stops_cons (by decide) rest), skipSpace_cons rfl]
    rfl
  | cons m' ms ih =>
    have htext : jsonList ((m :: m' :: ms).map Member.written) =
        m.written ++ chr ',' :: jsonList ((m' :: ms).map Member.written) := jsonList_cons_cons ..
    rw [htext] at hf ⊢
    rw [List.length_append, List.length_cons] at hf
    obtain ⟨fuel, rfl⟩ : ∃ f, fuel = f + 1 := ⟨fuel - 1, by omega⟩
    rw [List.append_assoc, List.cons_append,
      parseMembers_member (h m List.mem_cons_self) (by omega) hr (stops_cons (by decide) _), skipSpace_cons (by decide)]
    show (parseMembers fuel room _).map _ = _
    rw [ih (fun x hx => h x (List.mem_cons_of_mem _ hx)) (by omega) m'.length_text]
    rfl

theorem reads_object {ms : List Member} (h : ∀ m ∈ ms, Reads m.text n m.value) :
    Reads (jsonObject (ms.map fun m => (m.key, m.text))) (n + 1)
      (.object (ms.map fun m => (coerceUTF8 m.key, m.value))) := by
  intro fuel room rest hf hr _
  have htext : jsonObject (ms.map fun m => (m.key, m.text)) = 0x7B :: (jsonList (ms.map Member.written) ++ [0x7D]) := by
    simp only [jsonObject, List.map_map]
    rfl
  rw [htext] at hf ⊢
  rw [List.length_cons, List.length_append] at hf
  obtain ⟨fuel, rfl⟩ : ∃ f, fuel = f + 1 := ⟨fuel - 1, by omega⟩
  obtain ⟨room, rfl⟩ : ∃ r, room = r + 1 := ⟨room - 1, by omega⟩
  rw [List.cons_append, parseValue, skipSpace_cons rfl]
  cases ms with
  | nil => rfl
  | cons m ms =>
    have hlen : (jsonList ((m :: ms).map Member.written)).length ≤ fuel := by omega
    have hparse := parseMembers_written h rest hlen (Nat.le_of_succ_le_succ hr)
    have hhead : ∃ t, jsonList ((m :: ms).map Member.written) = 0x22 :: t := by
      cases ms <;> exact ⟨_, by simp only [jsonList, List.map_cons, Member.written, jsonString]; rfl⟩
    obtain ⟨t, ht⟩ := hhead
    rw [ht, List.cons_append] at hparse
    rw [List.append_assoc, List.singleton_append, ht, List.cons_append]
    simp only [skipSpace_cons (show jsonSpace 0x22 = false from rfl)]
    show (parseMembers fuel room (0x22 :: (t ++ 0x7D :: rest))).map _ = _
    rw [hparse]
    rfl

/-- A whole text. -/
theorem parseJSON_of_reads {text : Bytes} {v : Json} (h : Reads text n v) (hn : n ≤ maxNestingDepth) :
    parseJSON text = some v := by
  have hparse := h (text.length + 1) maxNestingDepth [] (by omega) hn fun _ hb => nomatch hb
  rw [List.append_nil] at hparse
  rw [parseJSON, hparse]
  rfl

end Messq

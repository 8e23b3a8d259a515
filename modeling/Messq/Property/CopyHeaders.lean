import Messq.Id
import Messq.Property.Grammar
import Messq.Property.Headers
import Messq.Property.Reason

/-! # The headers of a dead-letter copy

`mergeCopyHeaders` decodes the origin's header text, lays the provenance headers over the user headers and writes the
result, dropping `Messq-Last-Reason` and then `Messq-Origin-Published-At` while the text is above twice the header
budget. The user headers take at most the budget (`size_persisted`), the provenance headers without the reason less than
a second one (`mandatoryHeaders_size`), so the copy always fits and only the reason is ever dropped
(`mergeCopyHeaders_complete`). -/

namespace Messq

open Lib Table

variable {p : Bytes × Bytes} {h merged prov user : Headers} {o : Option Headers} {cap k m n : ℕ}

/-! ## The merge on texts -/

/-- The ways `mergeCopyHeaders` can fail. -/
inductive MergeErr
  | originHdr
  | mandatorySet
  deriving DecidableEq

/-- The headers of the stored text; no text is no headers. -/
def storedHeaders (hdr : Option Bytes) : Option Headers :=
  match hdr with
  | none => some Table.empty
  | some text => Headers.unmarshal text

/-- Provenance over the user's headers. -/
def overlay (user prov : Headers) : Headers := prov.rows.foldl (fun h p => h.set p.1 p.2) user

/-- `DLQSink.mergeCopyHeaders`, from the origin's text to the copy's. -/
def mergeCopyText (capBytes : ℕ) (originHdr : Option Bytes) (prov : Headers) : Except MergeErr (Bytes × Bool) := do
  let user ← orError .originHdr (storedHeaders originHdr)
  let (merged, trimmed) ← orError .mandatorySet
    (trimHeaders capBytes [lastReasonKey, publishedAtKey] (overlay user prov) false)
  return (merged.marshal, trimmed)

/-- `StripProvenance`. -/
def stripProvenance (h : Headers) : Headers := h.delete fun p => (str "Messq-").isPrefixOf p.1

theorem storedHeaders_marshal (o : Option Headers) :
    storedHeaders (o.map Headers.marshal) = some ((o.map Headers.persisted).getD Table.empty) := by
  cases o with
  | none => rfl
  | some h => exact unmarshal_marshal h

/-- The merge on maps is the merge on their texts. -/
theorem mergeCopyText_eq {capBytes : ℕ} {trimmed : Bool}
    (h : mergeCopyHeaders capBytes o prov = some (merged, trimmed)) :
    mergeCopyText capBytes (o.map Headers.marshal) prov = .ok (merged.marshal, trimmed) := by
  rw [mergeCopyText, storedHeaders_marshal]
  show (orError MergeErr.mandatorySet (mergeCopyHeaders capBytes o prov) >>= _) = _
  rw [h]
  rfl

/-! ## Sizes -/

/-- A member with its colon and its comma. -/
def memberSize (p : Bytes × Bytes) : ℕ := (jsonString p.1).length + (jsonString p.2).length + 2

def Headers.size (h : Headers) : ℕ := (h.rows.map memberSize).sum

theorem length_flatten_intersperse (ts : List Bytes) (hne : ts ≠ []) :
    ((ts.intersperse [chr ',']).flatten).length + 1 = (ts.map fun t => t.length + 1).sum := by
  induction ts with
  | nil => exact absurd rfl hne
  | cons t ts ih =>
    cases ts with
    | nil => simp
    | cons u ts =>
      have := ih (List.cons_ne_nil _ _)
      rw [List.intersperse_cons_cons, List.flatten_cons, List.flatten_cons, List.map_cons, List.sum_cons]
      simp only [List.length_append, List.length_singleton]
      omega

/-- The text of a map is its members and the braces. -/
theorem length_marshal (h : Headers) : h.size ≤ h.marshal.length ∧ h.marshal.length ≤ h.size + 2 := by
  have hsum : h.size =
      ((h.sorted.map fun p => jsonString p.1 ++ [chr ':'] ++ jsonString p.2).map fun t => t.length + 1).sum := by
    rw [Headers.size, ← (h.perm_sorted.map memberSize).sum_eq, List.map_map]
    refine congrArg List.sum (List.map_congr_left fun p _ => ?_)
    simp only [memberSize, Function.comp, List.length_append, List.length_singleton]
    omega
  rw [Headers.marshal, List.length_append, List.length_append, List.length_singleton, List.length_singleton]
  by_cases hne : h.sorted.map (fun p => jsonString p.1 ++ [chr ':'] ++ jsonString p.2) = []
  · rw [hne] at hsum ⊢
    simp only [List.map_nil, List.sum_nil] at hsum
    rw [hsum]
    simp
  · have := length_flatten_intersperse _ hne
    omega

/-- Distinct rows out of a list weigh no more than the list. -/
theorem size_le_of_subset {l : List (Bytes × Bytes)} (hsub : ∀ p ∈ h, p ∈ l) : h.size ≤ (l.map memberSize).sum := by
  obtain ⟨l', hperm, hsub'⟩ := List.subperm_of_subset h.nodup_rows hsub
  rw [Headers.size, ← (hperm.map memberSize).sum_eq]
  exact (hsub'.map memberSize).sum_le_sum fun _ _ => Nat.zero_le _

theorem jsonRune_length (r : Option ℕ) : (jsonRune r).length ≤ 6 := by
  cases r with
  | none => decide
  | some r =>
    unfold jsonRune
    dsimp only
    split_ifs with h₁ h₂ h₃ h₄ h₅ h₆ h₇
    · simp
    · decide
    · decide
    · decide
    · decide
    · decide
    · obtain ⟨a, b, c, d, hhex, -⟩ := codeUnit_hex (r := r) (by simp [numbered]; omega)
      rw [hhex]
      exact le_of_eq rfl
    · unfold encodeRune
      split_ifs <;> simp

/-- Escaping makes a text at most six times as long. -/
theorem jsonString_length (s : Bytes) : (jsonString s).length ≤ 6 * s.length + 2 := by
  have hrunes : ∀ skip s, ((runesFrom skip s).flatMap jsonRune).length ≤ 6 * s.length := by
    intro skip s
    induction s generalizing skip with
    | nil => simp [runesFrom]
    | cons b s ih =>
      cases skip with
      | succ skip =>
        have := ih skip
        rw [runesFrom, List.length_cons]
        omega
      | zero =>
        have := ih ((decodeRune (b :: s)).2 - 1)
        have := jsonRune_length (decodeRune (b :: s)).1
        rw [runesFrom, List.flatMap_cons, List.length_append, List.length_cons]
        omega
  have := hrunes 0 s
  rw [jsonString, List.length_append, List.length_append, List.length_singleton, runes]
  omega

/-- A text that went through JSON is written no longer than before. -/
theorem jsonString_coerceUTF8 (s : Bytes) : (jsonString (coerceUTF8 s)).length ≤ (jsonString s).length := by
  have hlist : ∀ rs : List (Option ℕ),
      ((rs.map fun r => some (r.getD runeError)).flatMap jsonRune).length ≤ (rs.flatMap jsonRune).length := by
    intro rs
    induction rs with
    | nil => exact le_rfl
    | cons r rs ih =>
      rw [List.map_cons, List.flatMap_cons, List.flatMap_cons, List.length_append, List.length_append]
      refine Nat.add_le_add ?_ ih
      cases r with
      | none => decide
      | some r => exact le_rfl
  have := hlist (runes s)
  rw [jsonString, jsonString, coerceUTF8_eq, runes_encodeRunes (coercedRunes_isRune s), coercedRunes, List.map_map]
  simp only [List.length_append, List.length_singleton]
  exact Nat.add_le_add_right (Nat.add_le_add_left this 1) 1

/-- The headers as they are read back weigh no more than the stored text. -/
theorem size_persisted (h : Headers) : h.persisted.size ≤ h.marshal.length := by
  have hcoerce : ∀ l : List (Bytes × Bytes),
      ((l.map fun p => (coerceUTF8 p.1, coerceUTF8 p.2)).map memberSize).sum ≤ (l.map memberSize).sum := by
    intro l
    induction l with
    | nil => exact le_rfl
    | cons p l ih =>
      have h₁ := jsonString_coerceUTF8 p.1
      have h₂ := jsonString_coerceUTF8 p.2
      simp only [List.map_cons, List.sum_cons, memberSize] at ih ⊢
      omega
  calc h.persisted.size ≤ ((h.sorted.map fun p => (coerceUTF8 p.1, coerceUTF8 p.2)).map memberSize).sum :=
        size_le_of_subset fun _ hp => Headers.mem_of_mem_ofPairs hp
    _ ≤ (h.sorted.map memberSize).sum := hcoerce _
    _ = h.size := (h.perm_sorted.map memberSize).sum_eq
    _ ≤ h.marshal.length := (length_marshal h).1

/-! ## Texts of a death -/

/-- An ASCII text of at most `n` bytes. -/
structure ShortText (n : ℕ) (s : Bytes) : Prop where
  length : s.length ≤ n
  ascii : ∀ b ∈ s, b.toNat < 0x80

theorem ShortText.append {s t : Bytes} (hs : ShortText m s) (ht : ShortText n t) : ShortText (m + n) (s ++ t) :=
  ⟨by rw [List.length_append]; exact Nat.add_le_add hs.length ht.length,
    List.forall_mem_append.mpr ⟨hs.ascii, ht.ascii⟩⟩

theorem shortText_chr {c : Char} (h : c.toNat < 0x80) : ShortText 1 [chr c] :=
  ⟨le_rfl, List.forall_mem_singleton.mpr (by rw [chr, toUInt8_toNat (by omega)]; exact h)⟩

theorem shortText_itoa_nat (hk : 0 < k) (h : n < 10 ^ k) : ShortText k (itoa n) :=
  ⟨length_itoa_le hk h, fun b hb => (by have := mem_itoa hb; omega)⟩

theorem shortText_itoa {v : ℤ} (h : IsInt64 v) : ShortText 20 (itoa v) := by
  unfold IsInt64 at h
  cases v with
  | ofNat n =>
    rw [Int.ofNat_eq_natCast] at h
    exact shortText_itoa_nat (n := n) (by decide) (by norm_num; omega)
  | negSucc n =>
    rw [Int.negSucc_eq] at h
    exact (shortText_chr (c := '-') (by decide)).append
      (shortText_itoa_nat (n := n + 1) (k := 19) (by decide) (by norm_num; omega))

theorem shortText_padded {w : ℕ} {n : ℤ} (hw : w ≤ k) (hk : 0 < k) (h : n.natAbs < 10 ^ k) :
    ShortText (k + 1) (padded w n) := by
  have hdigits := shortText_itoa_nat hk h
  have hle := hdigits.length
  have hzeros : ∀ b ∈ List.replicate (w - (itoa n.natAbs).length) (chr '0'), b.toNat < 0x80 := by
    intro b hb
    rw [(List.mem_replicate.mp hb).2]
    exact (shortText_chr (c := '0') (by decide)).ascii _ List.mem_cons_self
  have hsign : ShortText 1 (if n < 0 then [chr '-'] else []) := by
    split
    · exact shortText_chr (by decide)
    · exact ⟨Nat.zero_le _, fun _ hb => absurd hb List.not_mem_nil⟩
  constructor
  · have := hsign.length
    simp only [padded, List.length_append, List.length_replicate]
    omega
  · exact List.forall_mem_append.mpr ⟨List.forall_mem_append.mpr ⟨hsign.ascii, hzeros⟩, hdigits.ascii⟩

/-- A date within the range of the clock is short. -/
theorem shortText_formatRFC3339MS {ms : ℤ} (h : IsInt64 ms) : ShortText 84 (formatRFC3339MS ms) := by
  have piece {w : ℕ} {n : ℤ} (c : Char) (hc : c.toNat < 0x80) (hw : w ≤ 10) (hn : n.natAbs < 10 ^ 10) :
      ShortText 12 (padded w n ++ [chr c]) := (shortText_padded hw (by decide) hn).append (shortText_chr hc)
  unfold IsInt64 at h
  unfold formatRFC3339MS
  dsimp only
  generalize hdays : ms / 86400000 = days
  generalize hrem : ms % 86400000 = rem
  generalize hz : days + 719468 = z
  generalize hera : z / 146097 = era
  generalize hdoe : z - era * 146097 = doe
  generalize hyoe : (doe - doe / 1460 + doe / 36524 - doe / 146096) / 365 = yoe
  generalize hdoy : doe - (365 * yoe + yoe / 4 - yoe / 100) = doy
  generalize hmp : (5 * doy + 2) / 153 = mp
  have b₁ : -200000000000 ≤ days ∧ days ≤ 200000000000 := by omega
  have b₂ : -2000000 ≤ era ∧ era ≤ 2000000 := by omega
  have b₃ : 0 ≤ doe ∧ doe < 146097 := by omega
  have b₄ : 0 ≤ yoe ∧ yoe ≤ 400 := by omega
  have b₅ : -1000 ≤ doy ∧ doy ≤ 146097 := by omega
  have b₆ : -100 ≤ mp ∧ mp ≤ 10000 := by omega
  generalize hmonth : (if mp < 10 then mp + 3 else mp - 9) = month
  have b₇ : -100 ≤ month ∧ month ≤ 10003 := by
    rw [← hmonth]
    split_ifs <;> omega
  generalize hleap : (if month ≤ 2 then (1 : ℤ) else 0) = leap
  have b₈ : 0 ≤ leap ∧ leap ≤ 1 := by
    rw [← hleap]
    split_ifs <;> omega
  have := ((((((piece (w := 4) (n := yoe + era * 400 + leap) '-' (by decide) (by decide) (by omega)).append
    (piece (w := 2) (n := month) '-' (by decide) (by decide) (by omega))).append
    (piece (w := 2) (n := doy - (153 * mp + 2) / 5 + 1) 'T' (by decide) (by decide) (by omega))).append
    (piece (w := 2) (n := rem / 3600000) ':' (by decide) (by decide) (by omega))).append
    (piece (w := 2) (n := rem / 60000 % 60) ':' (by decide) (by decide) (by omega))).append
    (piece (w := 2) (n := rem / 1000 % 60) '.' (by decide) (by decide) (by omega))).append
    (piece (w := 3) (n := rem % 1000) 'Z' (by decide) (by decide) (by omega))
  simpa only [List.append_assoc] using this

theorem shortText_name {name : Bytes} {dots : Bool} (h : Subject.validateName name dots n = .ok ()) :
    ShortText n name := by
  have hall : ∀ dots, ∀ n < 256, Subject.nameByte dots n.toUInt8 = true → n < 0x80 := by decide +kernel
  refine ⟨(validateName_length h).2, fun b hb => hall dots b.toNat b.toNat_lt ?_⟩
  simp only [Subject.validateName, guard_eq_ok] at h
  rw [toUInt8_eq rfl]
  exact List.all_eq_true.mp (by simpa using h.2.2.1) b hb

theorem shortText_id (u : MsgID) : ShortText 26 u.string := by
  have hall : ∀ i < 32, (crockford.getD i 0).toNat < 0x80 := by decide +kernel
  refine ⟨by rw [MsgID.string, List.length_map, List.length_range], List.forall_mem_map.mpr fun i _ => ?_⟩
  exact hall _ (Nat.mod_lt _ (by decide))

/-- A death: a message of a named stream and consumer under a minted id, with numbers and clocks of 64 bits. -/
structure DeadCtx.Valid (d : DeadCtx) (publishedAt nowMs : ℤ) : Prop where
  stream : Subject.validateStreamName d.stream = .ok ()
  consumer : Subject.validateConsumerName d.consumer = .ok ()
  id : ∃ u : MsgID, d.msgId = u.string
  seq : IsInt64 d.seq
  attempts : IsInt64 d.attempts
  generation : IsInt64 d.generation
  maxDeliver : IsInt64 d.maxDeliver
  publishedAt : IsInt64 publishedAt
  now : IsInt64 nowMs

/-! ## Provenance headers -/

def truncatedKey : Bytes := str "Messq-Last-Reason-Truncated"

/-- The provenance headers every copy carries, with the longest their values can be. -/
def mandatoryHeaders (d : DeadCtx) (publishedAt nowMs : ℤ) : List ((Bytes × Bytes) × ℕ) :=
  [((str "Messq-Origin-Id", d.msgId), 26), ((str "Messq-Origin-Stream", d.stream), 64),
   ((str "Messq-Origin-Seq", itoa d.seq), 20), ((str "Messq-Origin-Consumer", d.consumer), 64),
   ((str "Messq-Origin-Generation", itoa d.generation), 20), ((publishedAtKey, formatRFC3339MS publishedAt), 84),
   ((str "Messq-Attempts", itoa d.attempts), 20), ((str "Messq-Max-Deliver", itoa d.maxDeliver), 20),
   ((str "Messq-Cause", d.cause.text), 14), ((str "Messq-Trigger", d.trigger.text), 14),
   ((truncatedKey, str "true"), 4), ((str "Messq-Dead-At", formatRFC3339MS nowMs), 84)]

variable {d : DeadCtx} {publishedAt nowMs : ℤ}

/-- The names of the provenance headers are canonical. -/
theorem canonical_provenance (d : DeadCtx) (publishedAt nowMs : ℤ) :
    ∀ k ∈ lastReasonKey :: (mandatoryHeaders d publishedAt nowMs).map fun x => x.1.1, canonicalMIMEHeaderKey k = k := by
  have hkeys : ∀ k ∈ [lastReasonKey, str "Messq-Origin-Id", str "Messq-Origin-Stream", str "Messq-Origin-Seq",
      str "Messq-Origin-Consumer", str "Messq-Origin-Generation", publishedAtKey, str "Messq-Attempts",
      str "Messq-Max-Deliver", str "Messq-Cause", str "Messq-Trigger", truncatedKey, str "Messq-Dead-At"],
      canonicalMIMEHeaderKey k = k := by decide +kernel
  exact hkeys

/-- A provenance header is one of the mandatory ones or the reason. -/
theorem mem_provenanceHeaders (h : p ∈ (provenanceHeaders d publishedAt nowMs m).1) :
    p ∈ (mandatoryHeaders d publishedAt nowMs).map Prod.fst ∨
    p = (lastReasonKey, (sanitizeReason d.lastReason m).1) := by
  obtain ⟨q, hq, rfl⟩ := List.mem_map.mp (Headers.mem_of_mem_ofPairs h)
  have hcases : q ∈ (mandatoryHeaders d publishedAt nowMs).map Prod.fst ∨
      q = (lastReasonKey, (sanitizeReason d.lastReason m).1) := by
    rcases List.mem_append.mp hq with hq | hq
    · rcases List.mem_append.mp hq with hq | hq
      · exact .inl (List.mem_append_left [(truncatedKey, str "true"), (str "Messq-Dead-At", formatRFC3339MS nowMs)] hq)
      · split at hq
        · cases hq
        rcases List.mem_cons.mp hq with hq | hq
        · exact .inr hq
        split at hq
        · exact .inl (List.mem_of_mem_drop (i := 10) (List.mem_of_mem_take (i := 1) hq))
        · cases hq
    · exact .inl (List.mem_of_mem_drop (i := 11) hq)
  have hkey : canonicalMIMEHeaderKey q.1 = q.1 := by
    refine canonical_provenance d publishedAt nowMs q.1 (List.mem_cons.mpr ?_)
    rcases hcases with hq | hq
    · obtain ⟨x, hx, rfl⟩ := List.mem_map.mp hq
      exact .inr (List.mem_map_of_mem (f := fun x => x.1.1) hx)
    · exact .inl (congrArg Prod.fst hq)
  rw [hkey]
  exact hcases

theorem mandatoryHeaders_short (hd : d.Valid publishedAt nowMs) :
    ∀ x ∈ mandatoryHeaders d publishedAt nowMs, ShortText x.2 x.1.2 := by
  obtain ⟨u, hu⟩ := hd.id
  have hcause : ShortText 14 d.cause.text := by
    cases d.cause <;> exact ⟨by decide, ascii_of_all (by decide)⟩
  have htrigger : ShortText 14 d.trigger.text := by
    cases d.trigger <;> exact ⟨by decide, ascii_of_all (by decide)⟩
  simp only [mandatoryHeaders, List.forall_mem_cons]
  exact ⟨hu ▸ shortText_id u, shortText_name hd.stream, shortText_itoa hd.seq, shortText_name hd.consumer,
    shortText_itoa hd.generation, shortText_formatRFC3339MS hd.publishedAt, shortText_itoa hd.attempts,
    shortText_itoa hd.maxDeliver, hcause, htrigger, ⟨by decide, ascii_of_all (by decide)⟩,
      shortText_formatRFC3339MS hd.now,
    fun _ hx => absurd hx List.not_mem_nil⟩

theorem mandatoryHeaders_key : ∀ x ∈ mandatoryHeaders d publishedAt nowMs,
    str "Messq-" <+: x.1.1 ∧ (∀ b ∈ x.1.1, b.toNat < 0x80) ∧ (jsonString x.1.1).length ≤ 29 := by
  have hkeys : ∀ k ∈ [str "Messq-Origin-Id", str "Messq-Origin-Stream", str "Messq-Origin-Seq",
      str "Messq-Origin-Consumer", str "Messq-Origin-Generation", publishedAtKey, str "Messq-Attempts",
      str "Messq-Max-Deliver", str "Messq-Cause", str "Messq-Trigger", truncatedKey, str "Messq-Dead-At"],
      str "Messq-" <+: k ∧ k.all (fun b => b.toNat < 0x80) = true ∧ (jsonString k).length ≤ 29 := by decide +kernel
  intro x hx
  obtain ⟨hname, hascii, hlen⟩ := hkeys x.1.1 (List.mem_map_of_mem (f := fun x => x.1.1) hx)
  exact ⟨hname, ascii_of_all hascii, hlen⟩

/-- The mandatory headers take less than one budget. -/
theorem mandatoryHeaders_size (hd : d.Valid publishedAt nowMs) :
    (((mandatoryHeaders d publishedAt nowMs).map Prod.fst).map memberSize).sum ≤ 4000 := by
  have hmember : ∀ x ∈ mandatoryHeaders d publishedAt nowMs, memberSize x.1 ≤ 33 + 6 * x.2 := by
    intro x hx
    have hkey := (mandatoryHeaders_key x hx).2.2
    have hvalue := jsonString_length x.1.2
    have hshort := (mandatoryHeaders_short hd x hx).length
    rw [memberSize]
    omega
  rw [List.map_map]
  calc ((mandatoryHeaders d publishedAt nowMs).map (memberSize ∘ Prod.fst)).sum
      ≤ ((mandatoryHeaders d publishedAt nowMs).map fun x => 33 + 6 * x.2).sum := List.sum_le_sum hmember
    _ ≤ 4000 := by simp [mandatoryHeaders]

/-! ## The copy -/

/-- Provenance wins over a user header of the same name. -/
theorem mem_overlay : p ∈ overlay user prov ↔ p ∈ prov ∨ (p ∈ user ∧ ∀ q ∈ prov, q.1 ≠ p.1) := by
  have hfind : p ∈ overlay user prov ↔ (overlay user prov).find? p.1 = some p :=
    ⟨fun h => find?_of_mem h, mem_of_find?⟩
  rw [hfind, overlay, Headers.find?_foldl_set]
  cases hq : prov.rows.reverse.find? fun q => decide (q.1 = p.1) with
  | none =>
    have hno : ∀ q ∈ prov, q.1 ≠ p.1 := fun q hq' => by
      simpa using List.find?_eq_none.mp hq q (List.mem_reverse.mpr hq')
    rw [Option.none_or]
    constructor
    · exact fun h => .inr ⟨mem_of_find? h, hno⟩
    · rintro (h | h)
      · exact absurd rfl (hno p h)
      · exact find?_of_mem h.1
  | some q =>
    have hmem : q ∈ prov := List.mem_reverse.mp (List.mem_of_find?_eq_some hq)
    have hkey : q.1 = p.1 := by simpa using List.find?_some hq
    rw [Option.some_or, Option.some.injEq]
    constructor
    · rintro rfl
      exact .inl hmem
    · rintro (h | h)
      · exact eq_of_key hmem h hkey
      · exact absurd hkey (h.2 q hmem)

/-- Once the set without the reason fits, nothing else is dropped. -/
theorem trimHeaders_reason (h : (merged.erase lastReasonKey).marshal.length ≤ cap) :
    ∃ r trimmed, trimHeaders cap [lastReasonKey, publishedAtKey] merged false = some (r, trimmed) ∧
      (r = merged ∨ (r = merged.erase lastReasonKey ∧ cap < merged.marshal.length)) := by
  by_cases hfit : merged.marshal.length ≤ cap
  · exact ⟨merged, false, by rw [trimHeaders, if_pos hfit], .inl rfl⟩
  · have hhas : merged.has lastReasonKey = true := by
      by_contra hno
      rw [erase_of_not_has (Bool.not_eq_true _ ▸ hno)] at h
      exact hfit h
    refine ⟨merged.erase lastReasonKey, true, ?_, .inr ⟨rfl, not_le.mp hfit⟩⟩
    rw [trimHeaders, if_neg hfit, if_pos hhas, trimHeaders, if_pos h]

/-- What a copy's headers are to the origin's: every user header, every provenance header but a reason that does not
fit, and the user headers again once provenance is stripped. -/
structure CompleteCopy (user prov copy : Headers) (cap : ℕ) : Prop where
  keepsUser : ∀ p ∈ user, p ∈ copy
  keepsProv : ∀ p ∈ prov, p ∈ copy ∨ (p.1 = lastReasonKey ∧ cap < (overlay user prov).marshal.length)
  strips : ∀ p, p ∈ stripProvenance copy ↔ p ∈ user

theorem CompleteCopy.congr {copy copy' : Headers} (h : CompleteCopy user prov copy cap)
    (hmem : ∀ p, p ∈ copy' ↔ p ∈ copy) : CompleteCopy user prov copy' cap := by
  refine ⟨fun p hp => (hmem p).mpr (h.keepsUser p hp), fun p hp => (h.keepsProv p hp).imp_left
    (hmem p).mpr, fun p => ?_⟩
  rw [← h.strips, stripProvenance, stripProvenance, mem_delete, mem_delete, hmem]

/-- Without the reason, the headers of a copy are at most the user's and the mandatory ones. -/
theorem overlay_size (user : Headers) (hd : d.Valid publishedAt nowMs) {reason : Bytes}
    (hprov : ∀ p ∈ prov, p ∈ (mandatoryHeaders d publishedAt nowMs).map Prod.fst ∨ p = (lastReasonKey, reason)) :
    ((overlay user prov).erase lastReasonKey).marshal.length ≤ user.size + 4002 := by
  have hsub : ∀ p ∈ (overlay user prov).erase lastReasonKey,
      p ∈ user.rows ++ (mandatoryHeaders d publishedAt nowMs).map Prod.fst := by
    intro p hp
    obtain ⟨hp, hkey⟩ := mem_delete.mp hp
    rcases mem_overlay.mp hp with hp | hp
    · refine List.mem_append_right _ ((hprov p hp).resolve_right ?_)
      rintro rfl
      simp at hkey
    · exact List.mem_append_left _ hp.1
  have hle := size_le_of_subset hsub
  rw [List.map_append, List.sum_append] at hle
  have hmandatory := mandatoryHeaders_size hd
  have htext := (length_marshal ((overlay user prov).erase lastReasonKey)).2
  rw [← Headers.size] at hle
  omega

/-- The merge of maps whose keys tell user headers from provenance. -/
theorem completeCopy_of_trim {r : Headers} (huser : ∀ p ∈ user, ¬ str "Messq-" <+: p.1)
    (hprov : ∀ p ∈ prov, str "Messq-" <+: p.1) (hr : r = overlay user prov ∨
      (r = (overlay user prov).erase lastReasonKey ∧ cap < (overlay user prov).marshal.length)) :
    CompleteCopy user prov r cap ∧ ∀ p ∈ r, p ∈ overlay user prov := by
  have hsub : ∀ p ∈ r, p ∈ overlay user prov := by
    rcases hr with rfl | ⟨rfl, -⟩
    · exact fun _ hp => hp
    · exact fun _ hp => (mem_delete.mp hp).1
  have hkeep : ∀ p ∈ overlay user prov, p ∈ r ∨ (p.1 = lastReasonKey ∧ cap < (overlay user prov).marshal.length) := by
    intro p hp
    rcases hr with rfl | ⟨rfl, hlong⟩
    · exact .inl hp
    · by_cases hkey : p.1 = lastReasonKey
      · exact .inr ⟨hkey, hlong⟩
      · exact .inl (mem_delete.mpr ⟨hp, by simpa using hkey⟩)
  have hreason : str "Messq-" <+: lastReasonKey := by decide +kernel
  have hcopy : ∀ p ∈ user, p ∈ r := by
    intro p hp
    have hmem : p ∈ overlay user prov := mem_overlay.mpr (.inr ⟨hp, fun q hq he => huser p hp (he ▸ hprov q hq)⟩)
    exact (hkeep p hmem).resolve_right fun h => huser p hp (h.1 ▸ hreason)
  refine ⟨⟨hcopy, fun p hp => hkeep p (mem_overlay.mpr (.inl hp)), fun p => ?_⟩, hsub⟩
  rw [stripProvenance, mem_delete, ← Bool.not_eq_true, List.isPrefixOf_iff_prefix]
  constructor
  · rintro ⟨hp, hno⟩
    exact ((mem_overlay.mp (hsub p hp)).resolve_left fun h => hno (hprov p h)).1
  · exact fun hp => ⟨hcopy p hp, huser p hp⟩

/-- The user headers of a stored text: valid, no provenance, and within the budget. -/
theorem storedHeaders_spec {l : Limits} (he : encodeHeaders h l = .ok o) :
    ((o.map Headers.persisted).getD Table.empty).Valid ∧
      (∀ p ∈ (o.map Headers.persisted).getD Table.empty, ¬ str "Messq-" <+: p.1) ∧
      ((o.map Headers.persisted).getD Table.empty).size ≤ l.maxHeaderBytes := by
  cases o with
  | none =>
    have hempty : ∀ p, p ∉ (Table.empty : Headers) := fun p hp => (mem_empty p).mp hp
    exact ⟨fun p hp => absurd hp (hempty p), fun p hp => absurd hp (hempty p), Nat.zero_le _⟩
  | some stored =>
    refine ⟨stored.valid_persisted, fun p hp => ?_, (size_persisted stored).trans (encodeHeaders_le he)⟩
    obtain ⟨hrows, haccept⟩ := encodeHeaders_some he
    obtain ⟨q, hq, rfl⟩ := List.mem_map.mp (Headers.mem_of_mem_ofPairs hp)
    have hq : q ∈ stored.rows := Headers.mem_sorted.mp hq
    rw [hrows] at hq
    obtain ⟨x, hx, rfl⟩ := List.mem_map.mp hq
    have hkept := prefix_map_coerceUTF8 (f := id) (fun _ => Iff.rfl) (p := str "Messq-")
      (ascii_of_all (by decide)) (canonicalMIMEHeaderKey x.1)
    rw [List.map_id, List.map_id] at hkept
    rw [hkept]
    exact (haccept x hx).2

theorem provenance_spec (hd : d.Valid publishedAt nowMs) {maxReason : ℕ} (hm : 0 < maxReason) :
    (provenanceHeaders d publishedAt nowMs maxReason).1.Valid ∧
      ∀ p ∈ (provenanceHeaders d publishedAt nowMs maxReason).1, str "Messq-" <+: p.1 := by
  have hreason : str "Messq-" <+: lastReasonKey ∧ ∀ b ∈ lastReasonKey, b.toNat < 0x80 :=
    ⟨by decide +kernel, ascii_of_all (by decide)⟩
  obtain ⟨full, kept, cut, -, hclean, rfl, hresult, -⟩ := sanitizeReason_cases d.lastReason hm
  constructor
  · intro p hp
    rcases mem_provenanceHeaders hp with hp | rfl
    · obtain ⟨x, hx, rfl⟩ := List.mem_map.mp hp
      exact ⟨validString_ascii (mandatoryHeaders_key x hx).2.1,
        validString_ascii (mandatoryHeaders_short hd x hx).ascii⟩
    · refine ⟨validString_ascii hreason.2, ?_⟩
      rw [hresult]
      exact validString_encodeRunes hclean.of_append.isRune
  · intro p hp
    rcases mem_provenanceHeaders hp with hp | rfl
    · obtain ⟨x, hx, rfl⟩ := List.mem_map.mp hp
      exact (mandatoryHeaders_key x hx).1
    · exact hreason.1

/-- Under the default limits a death never fails over headers: the copy's text fits twice the budget, and keeps every
header but a reason that would not fit. -/
theorem mergeCopyHeaders_complete {h : Headers} {o : Option Headers} (he : encodeHeaders h defaultLimits = .ok o)
    (hd : d.Valid publishedAt nowMs) :
    ∃ text trimmed user copy,
      mergeCopyText (2 * defaultLimits.maxHeaderBytes) (o.map Headers.marshal)
        (provenanceHeaders d publishedAt nowMs (defaultDLQConfig defaultLimits).reasonHeaderBytes).1 =
          .ok (text, trimmed) ∧
      text.length ≤ 2 * defaultLimits.maxHeaderBytes ∧
      storedHeaders (o.map Headers.marshal) = some user ∧ Headers.unmarshal text = some copy ∧
      CompleteCopy user (provenanceHeaders d publishedAt nowMs
        (defaultDLQConfig defaultLimits).reasonHeaderBytes).1 copy
        (2 * defaultLimits.maxHeaderBytes) := by
  have hreason : 0 < (defaultDLQConfig defaultLimits).reasonHeaderBytes := by decide
  generalize (defaultDLQConfig defaultLimits).reasonHeaderBytes = maxReason at hreason ⊢
  obtain ⟨hvalid, hno, hsize⟩ := storedHeaders_spec he
  obtain ⟨hvalid', hyes⟩ := provenance_spec hd hreason
  have hstored := storedHeaders_marshal o
  have hlen := overlay_size ((o.map Headers.persisted).getD Table.empty) hd
    fun _ hp => mem_provenanceHeaders (m := maxReason) hp
  generalize (provenanceHeaders d publishedAt nowMs maxReason).1 = prov at hvalid' hyes hlen ⊢
  have hcap : defaultLimits.maxHeaderBytes + 4002 ≤ 2 * defaultLimits.maxHeaderBytes := by decide
  obtain ⟨r, trimmed, hr, hcases⟩ := trimHeaders_reason (hlen.trans ((Nat.add_le_add_right hsize _).trans hcap))
  have hcopy := completeCopy_of_trim hno hyes hcases
  have hmem : ∀ p, p ∈ r.persisted ↔ p ∈ r := fun _ => Headers.Valid.mem_persisted fun p hp => by
    rcases mem_overlay.mp (hcopy.2 p hp) with hp | hp
    · exact hvalid' p hp
    · exact hvalid p hp.1
  exact ⟨r.marshal, trimmed, _, r.persisted, mergeCopyText_eq hr, trimHeaders_le hr, hstored, unmarshal_marshal r,
    hcopy.1.congr hmem⟩

/-- A header full of angle brackets, which JSON escapes. -/
def bulkyHeaders : Headers := Headers.ofPairs [(str "trace", List.replicate 300 (chr '<'))]

/-- A death for a reason that is longer than its bound and full of angle brackets. -/
def bulkyDeath : DeadCtx :=
  ⟨str "orders", str "billing", str "a", 1, MsgID.zero.string, [], 5, 1, 5, .maxDeliver, .nak,
    List.replicate 1030 (chr '<')⟩

/-- The reason is cut and still does not fit: the copy goes without it. -/
theorem mergeCopyHeaders_complete_bulky :
    let prov := (provenanceHeaders bulkyDeath 0 1 (defaultDLQConfig defaultLimits).reasonHeaderBytes).1
    ∃ (o : Option Headers) (text : Bytes) (user copy : Headers), encodeHeaders bulkyHeaders defaultLimits = .ok o ∧
      mergeCopyText (2 * defaultLimits.maxHeaderBytes) (o.map Headers.marshal) prov = .ok (text, true) ∧
      text.length ≤ 2 * defaultLimits.maxHeaderBytes ∧ storedHeaders (o.map Headers.marshal) = some user ∧
      Headers.unmarshal text = some copy ∧ CompleteCopy user prov copy (2 * defaultLimits.maxHeaderBytes) := by
  intro prov
  have htrim : (encodeHeaders bulkyHeaders defaultLimits).toOption.map (fun o =>
      (mergeCopyText (2 * defaultLimits.maxHeaderBytes) (o.map Headers.marshal) prov).toOption.map Prod.snd) =
        some (some true) := by decide +kernel
  obtain ⟨o, he, htrim⟩ := ok_of_map htrim
  obtain ⟨⟨text, trimmed⟩, hmerge, rfl⟩ := ok_of_map htrim
  have hd : bulkyDeath.Valid 0 1 :=
    ⟨by decide, by decide, ⟨MsgID.zero, rfl⟩, by unfold IsInt64; decide, by unfold IsInt64; decide,
      by unfold IsInt64; decide, by unfold IsInt64; decide, by unfold IsInt64; decide, by unfold IsInt64; decide⟩
  obtain ⟨text', trimmed, user, copy, hmerge', hlen, huser, hcopy, hcomplete⟩ := mergeCopyHeaders_complete he hd
  obtain ⟨rfl, rfl⟩ := Prod.mk.inj (Except.ok.inj (hmerge.symm.trans hmerge'))
  exact ⟨o, text, user, copy, he, hmerge, hlen, huser, hcopy, hcomplete⟩

end Messq

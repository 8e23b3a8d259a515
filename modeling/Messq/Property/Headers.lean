import Messq.Queue.Publish
import Messq.Utf8

/-! # Stored headers

`EncodeHeaders` canonicalises the keys of a header map and stores the map as a JSON object. `json.Unmarshal` of the
stored text is what `persisted` says (`unmarshal_marshal`). A key with a byte outside the token set is left as it is, in
whatever case it is written, and JSON rewrites a key that is not valid UTF-8. So the reserved names stay out of the
store and the headers come back as they were exactly when no key begins with `Messq-` in any case and every key is valid
UTF-8 (`headers_stored_iff`). -/

namespace Messq

open Lib Table

variable {p : Bytes × Bytes} {h : Headers} {l : Limits} {ps : List (Bytes × Bytes)} {b : UInt8}

/-! ## Maps -/

theorem Headers.find?_set (h : Headers) (k v x : Bytes) :
    (h.set k v).find? x = if x = k then some (k, v) else h.find? x :=
  find?_upsert h (k, v) x

/-- What is assigned later wins. -/
theorem Headers.find?_foldl_set (ps : List (Bytes × Bytes)) (h : Headers) (x : Bytes) :
    (ps.foldl (fun h p => h.set p.1 p.2) h).find? x = (ps.reverse.find? fun p => decide (p.1 = x)).or (h.find? x) := by
  induction ps generalizing h with
  | nil => rfl
  | cons p ps ih =>
    rw [List.foldl_cons, ih, Headers.find?_set, List.reverse_cons, List.find?_append, Option.or_assoc]
    congr 1
    by_cases hx : x = p.1
    · simp [hx]
    · simp [hx, Ne.symm hx]

theorem Headers.mem_of_mem_ofPairs (h : p ∈ Headers.ofPairs ps) : p ∈ ps := by
  have hfind := find?_of_mem h
  rw [Headers.ofPairs, Headers.find?_foldl_set, find?_empty, Option.or_none] at hfind
  exact List.mem_reverse.mp (List.mem_of_find?_eq_some hfind)

/-- Pairs with distinct keys are the map. -/
theorem Headers.mem_ofPairs (hps : (ps.map Prod.fst).Nodup) : p ∈ Headers.ofPairs ps ↔ p ∈ ps := by
  refine ⟨Headers.mem_of_mem_ofPairs, fun hp => ?_⟩
  have hfind : (Headers.ofPairs ps).find? p.1 = some p := by
    rw [Headers.ofPairs, Headers.find?_foldl_set, find?_empty, Option.or_none]
    cases hq : ps.reverse.find? fun q => decide (q.1 = p.1) with
    | none => exact absurd (List.find?_eq_none.mp hq p (List.mem_reverse.mpr hp)) (by simp)
    | some q =>
      have hmem := List.mem_reverse.mp (List.mem_of_find?_eq_some hq)
      have hkey : q.1 = p.1 := by simpa using List.find?_some hq
      rw [List.inj_on_of_nodup_map hps hmem hp hkey]
  exact mem_of_find? hfind

/-! ## JSON -/

/-- An element of a `map[string]string`: null leaves it empty. -/
def Json.mapValue : Json → Option Bytes
  | .string s => some s
  | .null => some []
  | _ => none

/-- `json.Unmarshal` into a `map[string]string`. -/
def Headers.unmarshal (text : Bytes) : Option Headers :=
  match parseJSON text with
  | some (.object ms) => (ms.mapM fun m : Bytes × Json => m.2.mapValue.map (m.1, ·)).map Headers.ofPairs
  | some .null => some Table.empty
  | _ => none

/-- The members of the object a map is stored as. -/
def Headers.members (h : Headers) : List (Bytes × Json) :=
  h.sorted.map fun p => (coerceUTF8 p.1, Json.string (coerceUTF8 p.2))

theorem Headers.perm_sorted (h : Headers) : h.sorted.Perm h.rows := List.perm_insertionSort _ _

theorem parseJSON_marshal (h : Headers) : parseJSON h.marshal = some (.object h.members) := by
  have hreads := @reads_object 0 (h.sorted.map fun p => ⟨p.1, jsonString p.2, .string (coerceUTF8 p.2)⟩)
    (List.forall_mem_map.mpr fun p _ => reads_string p.2 0)
  rw [List.map_map, List.map_map] at hreads
  have htext : jsonObject (h.sorted.map fun p => (p.1, jsonString p.2)) = h.marshal := by
    rw [jsonObject, List.map_map]
    rfl
  exact parseJSON_of_reads (htext ▸ hreads) (by decide)

/-- What is read back from the stored text. -/
theorem unmarshal_marshal (h : Headers) : Headers.unmarshal h.marshal = some h.persisted := by
  rw [Headers.unmarshal, parseJSON_marshal]
  have hmap : ∀ l : List (Bytes × Bytes),
      (l.map fun p => (coerceUTF8 p.1, Json.string (coerceUTF8 p.2))).mapM
        (fun m : Bytes × Json => m.2.mapValue.map (m.1, ·)) =
            some (l.map fun p => (coerceUTF8 p.1, coerceUTF8 p.2)) := by
    intro l
    induction l with
    | nil => rfl
    | cons p l ih =>
      rw [List.map_cons, List.mapM_cons, ih]
      rfl
  show Option.map Headers.ofPairs (h.members.mapM _) = _
  rw [Headers.members, hmap]
  rfl

theorem Headers.mem_sorted : p ∈ h.sorted ↔ p ∈ h := h.perm_sorted.mem_iff

theorem Headers.nodup_sorted (h : Headers) : (h.sorted.map Prod.fst).Nodup :=
  (h.perm_sorted.map Prod.fst).nodup_iff.mpr h.nodup

/-- Every text in the map is valid UTF-8. -/
def Headers.Valid (h : Headers) : Prop := ∀ p ∈ h, validString p.1 = true ∧ validString p.2 = true

/-- A map of valid texts survives the store. -/
theorem Headers.Valid.mem_persisted (hv : h.Valid) : p ∈ h.persisted ↔ p ∈ h := by
  have hpairs : h.sorted.map (fun p => (coerceUTF8 p.1, coerceUTF8 p.2)) = h.sorted := by
    refine (List.map_congr_left fun p hp => ?_).trans (List.map_id _)
    obtain ⟨h₁, h₂⟩ := hv p (Headers.mem_sorted.mp hp)
    rw [coerceUTF8_eq_self.mpr h₁, coerceUTF8_eq_self.mpr h₂]
    rfl
  rw [Headers.persisted, hpairs, Headers.mem_ofPairs h.nodup_sorted, Headers.mem_sorted]

theorem Headers.valid_persisted (h : Headers) : h.persisted.Valid := by
  intro p hp
  obtain ⟨q, -, rfl⟩ := List.mem_map.mp (Headers.mem_of_mem_ofPairs hp)
  exact ⟨validString_coerceUTF8 q.1, validString_coerceUTF8 q.2⟩

/-! ## Keys -/

/-- A name of the reserved namespace, in any case. -/
def Reserved (k : Bytes) : Prop := str "messq-" <+: k.map foldCase

theorem coerceUTF8_cons_ascii (hb : b.toNat < 0x80) (s : Bytes) : coerceUTF8 (b :: s) = b :: coerceUTF8 s := by
  have henc : b :: s = encodeRune b.toNat ++ s := by
    rw [encodeRune_ascii hb, toUInt8_eq rfl]
    rfl
  rw [henc, coerceUTF8, runes_encodeRune (.inl (by omega)), List.flatMap_cons, Option.getD_some, encodeRune_ascii hb,
    toUInt8_eq rfl]
  rfl

/-- A byte that is no ASCII stays none. -/
theorem coerceUTF8_cons_high (hb : 0x80 ≤ b.toNat) (s : Bytes) :
    ∃ c t, coerceUTF8 (b :: s) = c :: t ∧ 0x80 ≤ c.toNat := by
  have hfirst : ∃ r t, coerceUTF8 (b :: s) = encodeRune r ++ t ∧ IsRune r ∧ 0x80 ≤ r := by
    rw [coerceUTF8, runes, runesFrom, List.flatMap_cons]
    refine ⟨_, _, rfl, ?_⟩
    cases hdec : (decodeRune (b :: s)).1 with
    | none => exact ⟨isRune_runeError, by decide⟩
    | some r =>
      obtain ⟨hr, t, ht⟩ := decodeRune_some hdec
      refine ⟨hr, not_lt.mp fun hlt => ?_⟩
      rw [Option.getD_some] at hlt
      rw [encodeRune_ascii hlt] at ht
      obtain ⟨rfl, -⟩ := List.cons.inj ht
      rw [toUInt8_toNat (by omega)] at hb
      omega
  obtain ⟨r, t, he, hr, hlow⟩ := hfirst
  obtain ⟨c, t', hc⟩ := List.exists_cons_of_ne_nil (encodeRune_ne_nil r)
  refine ⟨c, t' ++ t, by rw [he, hc]; rfl, ?_⟩
  rcases encodeRune_head hr hc with h | h
  · omega
  · exact h

theorem foldCase_lt : (foldCase b).toNat < 0x80 ↔ b.toNat < 0x80 := by
  unfold foldCase
  split
  · rename_i h
    rw [UInt8.toNat_add, show (0x20 : UInt8).toNat = 32 from rfl]
    omega
  · rfl

/-- JSON keeps an ASCII beginning, whatever is made of its bytes. -/
theorem prefix_map_coerceUTF8 {f : UInt8 → UInt8} (hf : ∀ b, (f b).toNat < 0x80 ↔ b.toNat < 0x80) {p : Bytes}
    (hp : ∀ b ∈ p, b.toNat < 0x80) (k : Bytes) : p <+: (coerceUTF8 k).map f ↔ p <+: k.map f := by
  induction p generalizing k with
  | nil => exact iff_of_true List.nil_prefix List.nil_prefix
  | cons c p ih =>
    obtain ⟨hc, hp⟩ := List.forall_mem_cons.mp hp
    cases k with
    | nil => rfl
    | cons b k =>
      by_cases hb : b.toNat < 0x80
      · rw [coerceUTF8_cons_ascii hb, List.map_cons, List.map_cons, List.cons_prefix_cons, List.cons_prefix_cons, ih hp]
      · obtain ⟨b', t, he, hb'⟩ := coerceUTF8_cons_high (not_lt.mp hb) k
        rw [he, List.map_cons, List.map_cons, List.cons_prefix_cons, List.cons_prefix_cons]
        refine iff_of_false ?_ ?_
        · rintro ⟨rfl, -⟩
          have := (hf b').mp hc
          omega
        · rintro ⟨rfl, -⟩
          exact hb ((hf b).mp hc)

theorem reserved_coerceUTF8 (k : Bytes) : Reserved (coerceUTF8 k) ↔ Reserved k :=
  prefix_map_coerceUTF8 (fun _ => foldCase_lt) (p := str "messq-") (ascii_of_all (by decide)) k

/-- One byte of a canonical key. -/
def canonicalByte (upper : Bool) (c : UInt8) : UInt8 :=
  if upper && (0x61 ≤ c.toNat && c.toNat ≤ 0x7A) then c - 0x20
  else if !upper && (0x41 ≤ c.toNat && c.toNat ≤ 0x5A) then c + 0x20 else c

theorem foldCase_canonicalByte (upper : Bool) (c : UInt8) : foldCase (canonicalByte upper c) = foldCase c := by
  have hall : ∀ n < 256, ∀ upper, foldCase (canonicalByte upper n.toUInt8) = foldCase n.toUInt8 := by decide +kernel
  have := hall c.toNat c.toNat_lt upper
  rwa [toUInt8_eq rfl] at this

theorem map_foldCase_canonicalCase (upper : Bool) (k : Bytes) :
    (canonicalCase upper k).map foldCase = k.map foldCase := by
  induction k generalizing upper with
  | nil => rfl
  | cons c k ih => exact congrArg₂ List.cons (foldCase_canonicalByte upper c) (ih _)

theorem reserved_canonical (k : Bytes) : Reserved (canonicalMIMEHeaderKey k) ↔ Reserved k := by
  unfold Reserved canonicalMIMEHeaderKey
  split
  · rw [map_foldCase_canonicalCase]
  · rfl

theorem validString_ascii {k : Bytes} (h : ∀ b ∈ k, b.toNat < 0x80) : validString k = true := by
  rw [← encodeRunes_ascii h]
  exact validString_encodeRunes (List.forall_mem_map.mpr fun b hb => .inl (by have := h b hb; omega))

/-- Folding tells ASCII texts apart from others. -/
theorem ascii_of_map_foldCase {k k' : Bytes} (h : k.map foldCase = k'.map foldCase) (hk : ∀ b ∈ k, b.toNat < 0x80) :
    ∀ b ∈ k', b.toNat < 0x80 := by
  intro b hb
  have hmem : foldCase b ∈ k.map foldCase := h ▸ List.mem_map_of_mem hb
  obtain ⟨c, hc, he⟩ := List.mem_map.mp hmem
  exact foldCase_lt.mp (he ▸ foldCase_lt.mpr (hk c hc))

theorem validHeaderFieldByte_lt {c : UInt8} (h : validHeaderFieldByte c = true) : c.toNat < 0x80 := by
  have hall : ∀ n < 256, validHeaderFieldByte n.toUInt8 = true → n < 0x80 := by decide +kernel
  exact hall c.toNat c.toNat_lt (by rwa [toUInt8_eq rfl])

theorem validString_canonical (k : Bytes) : validString (canonicalMIMEHeaderKey k) = validString k := by
  unfold canonicalMIMEHeaderKey
  split
  · rename_i h
    have hk : ∀ b ∈ k, b.toNat < 0x80 := fun b hb => validHeaderFieldByte_lt (List.all_eq_true.mp h b hb)
    rw [validString_ascii hk, validString_ascii (ascii_of_map_foldCase (map_foldCase_canonicalCase true k).symm hk)]
  · rfl

/-! ## Encoding -/

/-- An accepted map has valid values under distinct canonical keys, none of which begins with `Messq-` as it is
written. -/
theorem canonicalHeaders_spec {acc out : Headers} (h : canonicalHeaders acc ps = .ok out) :
    out.rows = acc.rows ++ ps.map (fun p => (canonicalMIMEHeaderKey p.1, p.2)) ∧
      ∀ p ∈ ps, validString p.2 = true ∧ ¬ str "Messq-" <+: canonicalMIMEHeaderKey p.1 := by
  induction ps generalizing acc with
  | nil =>
    cases h
    exact ⟨(List.append_nil _).symm, fun _ hp => absurd hp List.not_mem_nil⟩
  | cons p ps ih =>
    simp only [canonicalHeaders, guard_eq_ok] at h
    obtain ⟨hvalid, -, hfresh, hname, h⟩ := h
    obtain ⟨hrows, hps⟩ := ih h
    have hset : (acc.set (canonicalMIMEHeaderKey p.1) p.2).rows = acc.rows ++ [(canonicalMIMEHeaderKey p.1, p.2)] := by
      have hnone : acc.find? (canonicalMIMEHeaderKey p.1) = none := by simpa [Headers.has] using hfresh
      rw [Headers.set, Table.upsert, Table.insert, dif_pos hnone]
      rfl
    refine ⟨?_, List.forall_mem_cons.mpr ⟨⟨by simpa using hvalid, by simpa using hname⟩, hps⟩⟩
    rw [hrows, hset, List.append_assoc]
    rfl

theorem encodeHeaders_some {stored : Headers} (he : encodeHeaders h l = .ok (some stored)) :
    stored.rows = h.rows.map (fun p => (canonicalMIMEHeaderKey p.1, p.2)) ∧
      ∀ p ∈ h, validString p.2 = true ∧ ¬ str "Messq-" <+: canonicalMIMEHeaderKey p.1 := by
  unfold encodeHeaders at he
  split at he
  · cases he
  · rw [guard_eq_ok, bind_eq_ok] at he
    obtain ⟨-, canonical, hc, he⟩ := he
    rw [guard_eq_ok] at he
    cases he.2
    exact canonicalHeaders_spec hc

theorem encodeHeaders_none (he : encodeHeaders h l = .ok none) : h.rows = [] := by
  unfold encodeHeaders at he
  split at he
  · assumption
  · rw [guard_eq_ok, bind_eq_ok] at he
    obtain ⟨-, canonical, -, he⟩ := he
    rw [guard_eq_ok] at he
    cases he.2

/-- The stored text keeps the map: its keys are no reserved names and as many as were given, and it decodes to the map
under canonical keys. -/
structure StoredWell (h : Headers) (text : Bytes) : Prop where
  members : ∃ ms, parseJSON text = some (.object ms) ∧ (∀ m ∈ ms, ¬ Reserved m.1) ∧ (ms.map Prod.fst).Nodup ∧
    ms.length = h.rows.length
  decoded : ∃ m, Headers.unmarshal text = some m ∧
    ∀ k v, (k, v) ∈ m ↔ ∃ k₀, (k₀, v) ∈ h ∧ canonicalMIMEHeaderKey k₀ = k

theorem storedWell_iff {stored : Headers} (he : encodeHeaders h l = .ok (some stored)) :
    StoredWell h stored.marshal ↔ ∀ p ∈ h, validString p.1 = true ∧ ¬ Reserved p.1 := by
  obtain ⟨hrows, haccept⟩ := encodeHeaders_some he
  have hmem : ∀ k v, (k, v) ∈ stored ↔ ∃ k₀, (k₀, v) ∈ h ∧ canonicalMIMEHeaderKey k₀ = k := by
    intro k v
    rw [mem_iff, hrows, List.mem_map]
    constructor
    · rintro ⟨p, hp, he⟩
      cases he
      exact ⟨p.1, hp, rfl⟩
    · rintro ⟨k₀, hp, rfl⟩
      exact ⟨(k₀, v), hp, rfl⟩
  constructor
  · rintro ⟨⟨ms, hms, hclosed, -, -⟩, m, hm, hdecoded⟩ p hp
    rw [parseJSON_marshal] at hms
    cases hms
    rw [unmarshal_marshal] at hm
    cases hm
    have hstored : (canonicalMIMEHeaderKey p.1, p.2) ∈ stored := (hmem _ _).mpr ⟨p.1, hp, rfl⟩
    refine ⟨?_, ?_⟩
    · -- the key is one of the decoded map, and those are valid
      have hkey := (Headers.valid_persisted stored _ ((hdecoded _ _).mpr ⟨p.1, hp, rfl⟩)).1
      rwa [validString_canonical] at hkey
    · have hno := hclosed _ (List.mem_map_of_mem (Headers.mem_sorted.mpr hstored))
      rwa [reserved_coerceUTF8, reserved_canonical] at hno
  · intro hgood
    have hvalid : stored.Valid := by
      rintro ⟨k, v⟩ hp
      obtain ⟨k₀, hk₀, rfl⟩ := (hmem k v).mp hp
      exact ⟨(validString_canonical k₀).trans (hgood _ hk₀).1, (haccept _ hk₀).1⟩
    have hkeys : stored.members.map Prod.fst = stored.sorted.map Prod.fst := by
      rw [Headers.members, List.map_map]
      exact List.map_congr_left fun p hp => coerceUTF8_eq_self.mpr (hvalid p (Headers.mem_sorted.mp hp)).1
    refine ⟨⟨stored.members, parseJSON_marshal stored, ?_, hkeys ▸ stored.nodup_sorted, ?_⟩, stored.persisted,
      unmarshal_marshal stored, fun k v => hvalid.mem_persisted.trans (hmem k v)⟩
    · refine List.forall_mem_map.mpr fun p hp => ?_
      obtain ⟨k₀, hk₀, hk⟩ := (hmem p.1 p.2).mp (Headers.mem_sorted.mp hp)
      rw [reserved_coerceUTF8, ← hk, reserved_canonical]
      exact (hgood _ hk₀).2
    · rw [Headers.members, List.length_map, stored.perm_sorted.length_eq, hrows, List.length_map]

/-- A map that is accepted is stored well exactly when its keys are valid UTF-8 and none is a reserved name in any
case. -/
theorem headers_stored_iff {h : Headers} {l : Limits} {o : Option Headers} (he : encodeHeaders h l = .ok o) :
    (∀ stored, o = some stored → StoredWell h stored.marshal) ↔ ∀ p ∈ h, validString p.1 = true ∧ ¬ Reserved p.1 := by
  cases o with
  | none =>
    refine iff_of_true (fun _ h => by cases h) fun p hp => ?_
    rw [mem_iff, encodeHeaders_none he] at hp
    cases hp
  | some stored =>
    rw [← storedWell_iff he]
    exact ⟨fun h => h stored rfl, fun h s hs => Option.some.inj hs ▸ h⟩

/-- What was stored, read off the rows. -/
theorem encodeHeaders_of_rows {r : List (Bytes × Bytes)}
    (hr : (encodeHeaders h l).toOption.map (Option.map Table.rows) = some (some r)) :
    ∃ stored, encodeHeaders h l = .ok (some stored) ∧ stored.rows = r := by
  obtain ⟨o, ho, he⟩ := ok_of_map hr
  obtain ⟨stored, rfl, hrows⟩ := Option.map_eq_some_iff.mp he
  exact ⟨stored, ho, hrows⟩

/-- A map with two keys, one of them in lower case. -/
theorem headers_stored_two :
    ∃ stored, encodeHeaders (Headers.ofPairs [(str "trace", str "1"), (str "X-Env", str "prod")]) defaultLimits =
        .ok (some stored) ∧ stored.rows = [(str "Trace", str "1"), (str "X-Env", str "prod")] ∧
      StoredWell (Headers.ofPairs [(str "trace", str "1"), (str "X-Env", str "prod")]) stored.marshal := by
  obtain ⟨stored, he, hrows⟩ := encodeHeaders_of_rows
    (h := Headers.ofPairs [(str "trace", str "1"), (str "X-Env", str "prod")]) (l := defaultLimits)
    (r := [(str "Trace", str "1"), (str "X-Env", str "prod")]) (by decide +kernel)
  refine ⟨stored, he, hrows, (headers_stored_iff he).mpr ?_ _ rfl⟩
  unfold Reserved
  decide +kernel

/-- A reserved name with a blank is not canonicalised, so it is accepted in lower case; and two keys that are no UTF-8
are both stored as U+FFFD. -/
theorem headers_leak :
    (∃ stored, encodeHeaders (Headers.ofPairs [(str "messq-origin id", str "1")]) defaultLimits = .ok (some stored) ∧
      ¬ StoredWell (Headers.ofPairs [(str "messq-origin id", str "1")]) stored.marshal) ∧
    ∃ stored, encodeHeaders (Headers.ofPairs [([0xFE], str "1"), ([0xFF], str "2")]) defaultLimits = .ok (some stored) ∧
      ¬ StoredWell (Headers.ofPairs [([0xFE], str "1"), ([0xFF], str "2")]) stored.marshal := by
  obtain ⟨stored, he, -⟩ := encodeHeaders_of_rows (h := Headers.ofPairs [(str "messq-origin id", str "1")])
    (l := defaultLimits) (r := [(str "messq-origin id", str "1")]) (by decide +kernel)
  obtain ⟨stored', he', -⟩ := encodeHeaders_of_rows (h := Headers.ofPairs [([0xFE], str "1"), ([0xFF], str "2")])
    (l := defaultLimits) (r := [([0xFE], str "1"), ([0xFF], str "2")]) (by decide +kernel)
  refine ⟨⟨stored, he, ?_⟩, stored', he', ?_⟩
  · rw [storedWell_iff he]
    unfold Reserved
    decide +kernel
  · rw [storedWell_iff he']
    unfold Reserved
    decide +kernel

end Messq

import Messq.Json
import Messq.Lib.Table

/-! # Headers

A Go `map[string]string` is a table keyed by its first component; the order of its rows is the order
`range` visits it in. Headers are persisted as one JSON object with sorted keys: a row holds the map it was
written from, `marshal` is the text in the column, whose length the budgets bound, and `persisted` is what a reader of
that text gets. -/

namespace Messq

open Lib

/-- A Go `map[string]string`. -/
abbrev Headers := Table (Prod.fst : Bytes × Bytes → Bytes)

/-- `m[k] = v`. -/
def Headers.set (h : Headers) (k v : Bytes) : Headers := h.upsert (k, v)

/-- `delete(m, k)`. -/
def Headers.erase (h : Headers) (k : Bytes) : Headers := h.delete fun p => p.1 == k

def Headers.has (h : Headers) (k : Bytes) : Bool := (h.find? k).isSome

/-- The map built by assigning the pairs in order. -/
def Headers.ofPairs (ps : List (Bytes × Bytes)) : Headers := ps.foldl (fun h p => h.set p.1 p.2) Table.empty

/-! ## Canonical keys -/

/-- `validHeaderFieldByte` of `net/textproto`: a token byte of RFC 7230. -/
def validHeaderFieldByte (c : UInt8) : Bool :=
  let n := c.toNat
  (0x30 ≤ n && n ≤ 0x39) || (0x41 ≤ n && n ≤ 0x5A) || (0x61 ≤ n && n ≤ 0x7A) ||
    (str "!#$%&'*+-.^_" ++ [0x60] ++ str "|~").contains c

/-- Upper case at the start and after each hyphen, lower case elsewhere. -/
def canonicalCase : Bool → Bytes → Bytes
  | _, [] => []
  | upper, c :: rest =>
    let n := c.toNat
    let c' := if upper && (0x61 ≤ n && n ≤ 0x7A) then c - 0x20
      else if !upper && (0x41 ≤ n && n ≤ 0x5A) then c + 0x20 else c
    c' :: canonicalCase (c == chr '-') rest

/-- `textproto.CanonicalMIMEHeaderKey`: a key with a byte outside the token set is returned unchanged. -/
def canonicalMIMEHeaderKey (s : Bytes) : Bytes := if s.all validHeaderFieldByte then canonicalCase true s else s

/-! ## JSON -/

/-- The pairs of a map in the order `json.Marshal` writes them. -/
def Headers.sorted (h : Headers) : List (Bytes × Bytes) := h.rows.insertionSort fun p q => p.1 ≤ q.1

/-- `json.Marshal` of a `map[string]string`. -/
def Headers.marshal (h : Headers) : Bytes :=
  let members := h.sorted.map fun p => jsonString p.1 ++ [chr ':'] ++ jsonString p.2
  [0x7B] ++ (members.intersperse [chr ',']).flatten ++ [0x7D]

/-- What `json.Unmarshal` reads back from `marshal`: a later member of the object wins. -/
def Headers.persisted (h : Headers) : Headers :=
  Headers.ofPairs (h.sorted.map fun p => (coerceUTF8 p.1, coerceUTF8 p.2))

end Messq

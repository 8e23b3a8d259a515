import Messq.Property.Names
import Messq.Property.Sequence
import Messq.Store.Reads

/-! # Peeking at a number

A peek tells a number that is gone from one that was never given out by two bounds: the first stored number and the next
one. Neither bound says that the stream is missing, since a missing counter reads as 0, and an empty stream has no first
number, so its old numbers are not expired. The answer is right exactly where these cases do not arise
(`peek_right_iff`). -/

namespace Messq

open Lib Table

/-- `stream_seq.next`, as the peek reads it. -/
def Store.peekBound (st : Store) (s : Bytes) : ℤ := ((st.streamSeq.find? s).map SeqRow.next).getD 0

/-- What a peek at the number `q` of `s` is to answer, after the run `past`. -/
structure PeekRight (past : List Visit) (st : Store) (s : Bytes) (q : ℤ) : Prop where
  stored : st.streams.find? s ≠ none → ∀ m, st.messages.find? (s, q) = some m → st.peekSeq s q = .ok (m.read true)
  /-- The number was given out, and everything stored comes after it. -/
  expired : st.streams.find? s ≠ none → q ∈ allocated s past → (∀ m ∈ st.messagesOf s, q < m.seq) →
    ∃ boundary, st.peekSeq s q = .error (.miss s .expired boundary)
  unpublished : st.streams.find? s ≠ none → st.peekBound s ≤ q →
    ∃ boundary, st.peekSeq s q = .error (.miss s .neverPublished boundary)
  missing : st.streams.find? s = none → st.peekSeq s q = .error (.noStream s)

/-- The stream is there; a stored number is below the next one, and one that is not below it is not below everything
stored; and no number of an empty stream was given out. -/
structure PeekSafe (past : List Visit) (st : Store) (s : Bytes) (q : ℤ) : Prop where
  exist : st.streams.find? s ≠ none
  below : st.messages.find? (s, q) ≠ none → q < st.peekBound s
  emptied : st.messagesOf s = [] → q ∉ allocated s past
  above : st.peekBound s ≤ q → st.messagesOf s = [] ∨ ∃ m ∈ st.messagesOf s, m.seq ≤ q

section Peek

variable {st : Store} {s : Bytes} {q : ℤ}

/-- The first stored number is above `q`. -/
theorem lt_firstSeq_iff : (∃ f ∈ st.firstSeq s, q < f) ↔ st.messagesOf s ≠ [] ∧ ∀ m ∈ st.messagesOf s, q < m.seq := by
  rw [Store.firstSeq]
  cases hmin : ((st.messagesOf s).map MessageRow.seq).min? with
  | none =>
    have hnil := List.map_eq_nil_iff.mp (List.min?_eq_none_iff.mp hmin)
    simp [hnil]
  | some f =>
    obtain ⟨hmem, hleast⟩ := List.min?_eq_some_iff.mp hmin
    obtain ⟨m₀, hm₀, rfl⟩ := List.mem_map.mp hmem
    simp only [Option.mem_some_iff, exists_eq_left']
    refine ⟨fun hlt => ⟨List.ne_nil_of_mem hm₀, fun m hm => ?_⟩, fun h => h.2 m₀ hm₀⟩
    exact hlt.trans_le (hleast _ (List.mem_map_of_mem hm))

/-- The answers of a peek at a stream with a valid name. -/
theorem peekSeq_eq (hv : validateExistingStreamName s = .ok ()) :
    st.peekSeq s q = if st.messagesOf s ≠ [] ∧ ∀ m ∈ st.messagesOf s, q < m.seq then
        .error (.miss s .expired ((st.firstSeq s).getD 0))
      else if st.peekBound s ≤ q then .error (.miss s .neverPublished (st.peekBound s - 1))
      else match st.messages.find? (s, q) with
        | some m => .ok (m.read true)
        | none => .error (.noRow s q ((st.firstSeq s).getD 0) (st.peekBound s)) := by
  unfold Store.peekSeq
  simp only [hv, reduceCtorEq, and_false, if_false, lt_firstSeq_iff, Option.getD_some]
  rfl

/-- No peek says that the stream does not exist. -/
theorem peekSeq_ne_noStream (st : Store) (s : Bytes) (q : ℤ) : st.peekSeq s q ≠ .error (.noStream s) := by
  cases hv : validateExistingStreamName s with
  | error e =>
    unfold Store.peekSeq
    rw [hv]
    simp
  | ok u =>
    rw [peekSeq_eq hv]
    split
    · simp
    split
    · simp
    split <;> simp

/-- **Peek.** In every reachable state the answer is right exactly where the number is safe. -/
theorem peek_right_iff {h : List Visit} {b : Broker} (r : Runs h b) :
    PeekRight h b.store s q ↔ PeekSafe h b.store s q := by
  have hvalid : b.store.streams.find? s ≠ none → validateExistingStreamName s = .ok () := fun he =>
    (r.named.names s (.inl he)).valid
  constructor
  · intro hr
    have he : b.store.streams.find? s ≠ none := fun hn => peekSeq_ne_noStream _ _ _ (hr.missing hn)
    have heq : b.store.peekSeq s q = _ := peekSeq_eq (hvalid he)
    refine ⟨he, fun hs => ?_, fun hnil hq => ?_, fun hle => ?_⟩
    · obtain ⟨m, hm⟩ := Option.ne_none_iff_exists'.mp hs
      rw [hr.stored he m hm] at heq
      by_contra hge
      rw [if_pos (not_lt.mp hge)] at heq
      split at heq <;> cases heq
    · obtain ⟨boundary, hexp⟩ := hr.expired he hq (by simp [hnil])
      rw [hexp, if_neg (by simp [hnil])] at heq
      split at heq
      · cases heq
      · split at heq <;> cases heq
    · obtain ⟨boundary, hnever⟩ := hr.unpublished he hle
      rw [hnever] at heq
      by_contra hno
      push Not at hno
      rw [if_pos hno] at heq
      cases heq
  · intro hsafe
    have heq : b.store.peekSeq s q = _ := peekSeq_eq (hvalid hsafe.exist)
    refine ⟨fun _ m hm => ?_, fun _ hq hall => ?_, fun _ hle => ?_, fun hn => absurd hn hsafe.exist⟩
    · have hkey : m.key = (s, q) := find?_key hm
      have hmem : m ∈ b.store.messagesOf s := mem_messagesOf.mpr ⟨mem_of_find? hm, congrArg Prod.fst hkey⟩
      have hseq : m.seq = q := congrArg Prod.snd hkey
      have hlt := hsafe.below (by simp [hm])
      rw [heq, if_neg fun hall => absurd (hall.2 m hmem) (by omega), if_neg (not_le.mpr hlt), hm]
    · refine ⟨_, heq.trans (if_pos ⟨fun hnil => hsafe.emptied hnil hq, hall⟩)⟩
    · refine ⟨_, heq.trans ((if_neg fun hall => ?_).trans (if_pos hle))⟩
      rcases hsafe.above hle with hnil | ⟨m, hm, hmq⟩
      · exact hall.1 hnil
      · exact absurd (hall.2 m hm) (not_lt.mpr hmq)

end Peek

/-- Two messages, the first of which is purged. -/
def halfPurged : List (ℤ × Request) := aSetup 2 ++ [(10, .purge aStream { upToSeq := some 1 } false [])]

/-- The first number is expired, the second stored and the third not published. -/
theorem peek_right_halfPurged : PeekRight (play halfPurged) (playState halfPurged).store aStream 1 ∧
    PeekRight (play halfPurged) (playState halfPurged).store aStream 2 ∧
    PeekRight (play halfPurged) (playState halfPurged).store aStream 3 := by
  have hexist : ((playState halfPurged).store.streams.find? aStream).isSome = true := by decide +kernel
  have hsafe : ∀ q ∈ [1, 2, 3], PeekSafe (play halfPurged) (playState halfPurged).store aStream q := fun q hq =>
    ⟨Option.isSome_iff_ne_none.mp hexist, by revert q; decide +kernel, by revert q; decide +kernel,
      by revert q; decide +kernel⟩
  have hruns := runs_play halfPurged
  exact ⟨(peek_right_iff hruns).mpr (hsafe 1 (by simp)), (peek_right_iff hruns).mpr (hsafe 2 (by simp)),
    (peek_right_iff hruns).mpr (hsafe 3 (by simp))⟩

/-- Both messages are purged. -/
def emptiedByPurge : List (ℤ × Request) := aSetup 2 ++ [(10, .purge aStream {} false [])]

/-- What a peek that fails reports. -/
def peekReport : Except PeekErr Message → Option PeekErr
  | .ok _ => none
  | .error e => some e

/-- A number of the emptied stream has no row but is not reported as expired, and a name that is no stream reports a
number that was never published. -/
theorem peek_not_right : Runs (play emptiedByPurge) (playState emptiedByPurge) ∧
    1 ∈ allocated aStream (play emptiedByPurge) ∧
    peekReport ((playState emptiedByPurge).store.peekSeq aStream 1) = some (.noRow aStream 1 0 3) ∧
    ((playState emptiedByPurge).store.streams.find? (str "t")).isNone = true ∧
    peekReport ((playState emptiedByPurge).store.peekSeq (str "t") 1) = some (.miss (str "t") .neverPublished (-1)) :=
  ⟨runs_play _, by decide +kernel, rfl, by decide +kernel, rfl⟩

end Messq

import Messq.Effect.Publish
import Messq.Run

/-! # The limits of a stream that discards new messages

`discard=new` asks a publish that would take the stream over `max_msgs` or `max_bytes` to be refused as stream-full. The
configuration a publish loads has none of the three columns, so the limits hold exactly as long as nobody asks for more
(`discardsNew_iff`): what a command adds is its lines without their duplicates (`Lines.tally`). -/

namespace Messq

open Lib Table

variable {k : Bytes} {env : Env} {lc : LoadedConfig} {r : PublishReq}

/-- `n` is above a limit; a limit that is not positive does not bind. -/
def above (limit n : ℤ) : Bool := 0 < limit && limit < n

/-- The keys a stream remembers. -/
def Store.dedupKeys (st : Store) (stream : Bytes) : List Bytes := (st.messagesOf stream).filterMap MessageRow.dedupKey

/-- The lines that repeat neither a remembered key nor one of an earlier line. -/
def newLines (window : ℤ) : List Bytes → List PublishReq → List PublishReq
  | _, [] => []
  | known, r :: rs =>
    if r.msgId ≠ [] ∧ 0 < window ∧ r.msgId ∈ known then newLines window known rs
    else r :: newLines window (r.msgId :: known) rs

def PublishReq.size (r : PublishReq) : ℤ := r.body.length

/-- The messages a client asks a stream to take, and their size. -/
def Store.demand (st : Store) (row : StreamRow) (lines : List PublishReq) : ℤ × ℤ :=
  Lib.tally PublishReq.size (newLines row.dedupWindowMs (st.dedupKeys row.name) lines)

/-- The lines are acceptable but for the limits of their stream. -/
structure Exceeds (b : Broker) (s : Step) (row : StreamRow) (lines : List PublishReq) : Prop where
  admitted : b.latched = false
  checked : checkRequest s.env s.req = .ok ()
  valid : ∀ r ∈ lines, validatePublish row.subjects row.maxMsgSize r s.env.opts.limits = .ok ()
  fresh : 0 < (b.store.demand row lines).1
  full : above row.maxMsgs ((b.store.tally row.name).1 + (b.store.demand row lines).1) = true ∨
    above row.maxBytes ((b.store.tally row.name).2 + (b.store.demand row lines).2) = true

/-- The limits of `row` bind the publish. -/
structure Enforced (b : Broker) (s : Step) (row : StreamRow) (lines : List PublishReq) : Prop where
  msgs : above row.maxMsgs (b.store.tally row.name).1 = false →
    above row.maxMsgs ((b.exec s).1.store.tally row.name).1 = false
  bytes : above row.maxBytes (b.store.tally row.name).2 = false →
    above row.maxBytes ((b.exec s).1.store.tally row.name).2 = false
  refused : Exceeds b s row lines → (∃ r, (b.exec s).2 = .refused r ∧ r.sentinel = .streamFull) ∧
    (b.exec s).1.store.messages = b.store.messages ∧ (b.exec s).1.store.streamSeq = b.store.streamSeq ∧
    (b.exec s).1.store.streamStats = b.store.streamStats

/-- The limits of every stream with `discard=new` bind what a client publishes to it. -/
def DiscardsNew (b : Broker) (s : Step) : Prop := ∀ row ∈ b.store.streams, row.discard = .new → ∀ lines,
  s.req.lines = some (row.name, lines) → Enforced b s row lines

/-! ## What a command adds -/

section Lines

variable {st st' : Store} {stream : Bytes}

theorem mem_dedupKeys : k ∈ st.dedupKeys stream ↔ ∃ m ∈ st.messages, m.stream = stream ∧ m.dedupKey = some k := by
  simp only [Store.dedupKeys, List.mem_filterMap, mem_messagesOf, and_assoc]

theorem findDedupHit_eq_none : st.findDedupHit stream k = none ↔ k ∉ st.dedupKeys stream := by
  rw [Store.findDedupHit, List.find?_eq_none, mem_dedupKeys]
  simp [mem_iff]

theorem original_eq_none :
    st.original lc r = none ↔ ¬ (r.msgId ≠ [] ∧ 0 < lc.window ∧ r.msgId ∈ st.dedupKeys lc.name) := by
  unfold Store.original
  split
  · rename_i hk
    rw [findDedupHit_eq_none]
    exact ⟨fun hn h => hn h.2.2, fun hn h => hn ⟨hk.1, hk.2, h⟩⟩
  · rename_i hk
    exact iff_of_true rfl fun h => hk ⟨h.1, h.2.1⟩

/-- Only the keys that a lookup can ask for matter. -/
theorem newLines_congr {window : ℤ} {a b : List Bytes} (rs : List PublishReq)
    (h : 0 < window → ∀ k ≠ [], k ∈ a ↔ k ∈ b) : newLines window a rs = newLines window b rs := by
  induction rs generalizing a b with
  | nil => rfl
  | cons r rs ih =>
    have hcond : (r.msgId ≠ [] ∧ 0 < window ∧ r.msgId ∈ a) ↔ (r.msgId ≠ [] ∧ 0 < window ∧ r.msgId ∈ b) :=
      and_congr_right fun hne => and_congr_right fun hw => h hw _ hne
    have hnext : 0 < window → ∀ k ≠ [], k ∈ r.msgId :: a ↔ k ∈ r.msgId :: b := fun hw k hk => by
      rw [List.mem_cons, List.mem_cons, h hw k hk]
    simp only [newLines, hcond, ih h, ih hnext]

/-- A stored line adds one message of its size, and its key. -/
theorem Posted.adds {m : MessageRow} {ack : Ack} (h : Posted env lc r st m ack st') :
    st'.tally lc.name = st.tally lc.name + (1, r.size) ∧
      (0 < lc.window → ∀ k ≠ [], k ∈ st'.dedupKeys lc.name ↔ k ∈ r.msgId :: st.dedupKeys lc.name) := by
  obtain ⟨row, msgs, e, -, -, hi, -, -, -, rfl⟩ := h.appended
  refine ⟨?_, fun hw k hk => ?_⟩
  · have ht := tally_insert MessageRow.size hi fun m => m.stream == lc.name
    rw [if_pos (by simp [h.stream]), h.size] at ht
    exact ht
  · have hmem : ∀ m', m' ∈ (st.appended m msgs e).messages ↔ m' ∈ st.messages ∨ m' = m := fun m' => mem_insert hi
    have hkey : m.dedupKey = some k ↔ k = r.msgId := by
      rw [h.dedupKey, if_neg (by omega), nullStr]
      split
      · rename_i hnil
        exact iff_of_false (by simp) (by rintro rfl; exact hk hnil)
      · rw [Option.some.injEq]
        exact eq_comm
    rw [List.mem_cons, mem_dedupKeys, mem_dedupKeys]
    constructor
    · rintro ⟨m', hm', hs, hm⟩
      rcases (hmem m').mp hm' with hold | rfl
      · exact .inr ⟨m', hold, hs, hm⟩
      · exact .inl (hkey.mp hm)
    · rintro (hk' | ⟨m', hm', hs, hm⟩)
      · exact ⟨m, (hmem m).mpr (.inr rfl), h.stream, hkey.mpr hk'⟩
      · exact ⟨m', (hmem m').mpr (.inl hm'), hs, hm⟩

/-- **Lines.** Lines that ran added what was new among them. -/
theorem Lines.tally {xs : List LineRun} (h : Lines env lc st xs st') :
    st'.tally lc.name = st.tally lc.name + Lib.tally PublishReq.size
      (newLines lc.window (st.dedupKeys lc.name) (xs.map LineRun.req)) := by
  induction h with
  | nil => simp [newLines, tally_nil]
  | @cons r ack st st₁ st' xs h _ ih =>
    rw [List.map_cons, newLines, ih]
    rcases publishTx_run h with ⟨m, e, horig, rfl, -⟩ | ⟨hnone, m, hp⟩
    · have hdup : r.msgId ≠ [] ∧ 0 < lc.window ∧ r.msgId ∈ st.dedupKeys lc.name := by
        by_contra hn
        rw [original_eq_none.mpr hn] at horig
        cases horig
      rw [if_pos hdup]
      rfl
    · obtain ⟨htally, hkeys⟩ := hp.adds
      rw [if_neg (original_eq_none.mp hnone), htally, newLines_congr _ hkeys, tally_cons, add_assoc]

end Lines

/-! ## Publishing under a limit -/

theorem sentinel_ne_streamFull (r : Refusal) : r.sentinel ≠ .streamFull := by
  induction r with
  | line n r ih => exact ih
  | grammar e => cases e <;> simp [Refusal.sentinel]
  | _ => simp [Refusal.sentinel]

/-- A committed publish was acceptable, and added what it asked for. -/
theorem Committed.publishes {b : Broker} {s : Step} {reply : Reply} {st : Store} {row : StreamRow}
    {lines : List PublishReq} (h : Committed b s reply st) (hrow : row ∈ b.store.streams)
    (hreq : s.req.lines = some (row.name, lines)) :
    (∀ r ∈ lines, validatePublish row.subjects row.maxMsgSize r s.env.opts.limits = .ok ()) ∧
      (b.exec s).1.store.tally row.name = b.store.tally row.name + b.store.demand row lines := by
  obtain ⟨row', hrow', hlines, hreqs, -⟩ := publish_lines hreq h.run
  obtain rfl : row = row' := Option.some.inj ((find?_of_mem hrow).symm.trans hrow')
  have hvalid := hlines.valid
  have htally := hlines.tally
  rw [hreqs] at hvalid htally
  refine ⟨hvalid, ?_⟩
  rw [h.post]
  exact htally

/-- **Limits.** The limits of a stream with `discard=new` bind a publish if and only if the publish, acceptable
otherwise, does not ask for more than they leave. -/
theorem discardsNew_iff (b : Broker) (s : Step) : DiscardsNew b s ↔ ∀ row ∈ b.store.streams, row.discard = .new →
    ∀ lines, s.req.lines = some (row.name, lines) → ¬ Exceeds b s row lines := by
  refine forall₅_congr fun row hrow hd lines hreq => ⟨fun h he => ?_, fun hne => ?_⟩
  · obtain ⟨⟨r, -, hfull⟩, -⟩ := h.refused he
    exact sentinel_ne_streamFull r hfull
  · rcases exec_cases b s with ⟨reply, st, hcom⟩ | ⟨hst, -⟩
    · obtain ⟨hvalid, htally⟩ := hcom.publishes hrow hreq
      have hadm : b.latched = false := by
        have := hcom.admitted
        cases hr : s.req with
        | publish | publishBatch => simpa [Broker.admits, hr] using this
        | _ => rw [hr] at hreq; cases hreq
      by_cases hfresh : 0 < (b.store.demand row lines).1
      · have hroom := not_or.mp fun hfull => hne ⟨hadm, hcom.checked, hvalid, hfresh, hfull⟩
        rw [Bool.not_eq_true, Bool.not_eq_true] at hroom
        exact ⟨fun _ => by rw [htally]; exact hroom.1, fun _ => by rw [htally]; exact hroom.2, fun he => absurd he hne⟩
      · -- nothing new: the stream stays as it is
        have hnil : newLines row.dedupWindowMs (b.store.dedupKeys row.name) lines = [] := by
          refine List.eq_nil_of_length_eq_zero ?_
          have : ¬ 0 < ((newLines row.dedupWindowMs (b.store.dedupKeys row.name) lines).length : ℤ) := hfresh
          omega
        rw [Store.demand, hnil, tally_nil, add_zero] at htally
        exact ⟨fun h => by rw [htally]; exact h, fun h => by rw [htally]; exact h, fun he => absurd he hne⟩
    · exact ⟨fun h => by rw [hst]; exact h, fun h => by rw [hst]; exact h, fun he => absurd he hne⟩

/-- A stream with room for one message, and that message. -/
def fullLife : List (ℤ × Request) :=
  [(1, .createStream { defaultConfig aStream with maxMsgs := 1, discard := .new } []),
    (2, aPublish)]

/-- Another message is accepted. -/
theorem full_stream_takes_more : Runs (play fullLife) (playState fullLife) ∧
    ¬ DiscardsNew (playState fullLife) ⟨.atMs 3, aPublish⟩ := by
  refine ⟨runs_play _, fun h => ?_⟩
  have hcols : ((playState fullLife).store.streams.find? aStream).map (fun r => (r.discard, r.maxMsgs)) =
    some (.new, 1) := by decide +kernel
  obtain ⟨row, hrow, hcols⟩ := Option.map_eq_some_iff.mp hcols
  obtain ⟨hd, hmax⟩ := Prod.mk.inj hcols
  have hname : row.name = aStream := find?_key hrow
  have hkept := (h row (mem_of_find? hrow) hd _ (by rw [hname]; rfl)).msgs
  rw [hmax, hname] at hkept
  exact absurd (hkept (by decide +kernel)) (by decide +kernel)

end Messq

import Messq.Property.Front

/-! # Seek

A seek resolves a position against the stored messages, moves the cursor there, drops every delivery row of the consumer
and starts a new generation. What a position means is `Store.Denotes`; whether it lies in the retained range is
`Store.Outside`. The command answers as it should exactly on the positions that are not before the first stored message
and, for a relative time, when the report it makes for the time 0 is the one for the instant it denotes
(`seek_moves_iff`). A position in time is found in the order of the time stamps and used as a sequence number; it splits
the stream because the stamps follow the numbers (`time_start_splits`). -/

namespace Messq

open Lib

variable {st' : Store} {cursor t next : ℤ} {actor stream : Bytes} {env : Env} {head : SeqRow} {dest : StartPosition}

section Positions

variable (st : Store) (stream : Bytes) (next : ℤ)

/-- `cursor` is the sequence number of the first message at or after `t`, or the head when there is none. -/
def Store.FirstSince (t cursor : ℤ) : Prop :=
  (∃ m ∈ st.messagesOf stream, m.seq = cursor ∧ t ≤ m.publishedAt ∧ ∀ m' ∈ st.messagesOf stream, t ≤ m'.publishedAt →
    m.publishedAt < m'.publishedAt ∨ m.publishedAt = m'.publishedAt ∧ m.seq ≤ m'.seq) ∨
  (∀ m ∈ st.messagesOf stream, m.publishedAt < t) ∧ cursor = next

/-- The cursor a position stands for, between the first stored message and the head. -/
def Store.Denotes (env : Env) (cursor : ℤ) : StartPosition → Prop
  | .first => cursor = st.floor stream next
  | .new => cursor = next
  | .seq n => cursor = max (st.floor stream next) (min n next)
  | .time t => st.FirstSince stream next t cursor
  | .rel offset => st.FirstSince stream next (unixMilli (env.now + offset)) cursor

/-- The instant is before every stored message, or after all of them. -/
def Store.OutsideTime (t : ℤ) : Prop :=
  (∀ m ∈ st.messagesOf stream, t < m.publishedAt) ∨ ∀ m ∈ st.messagesOf stream, m.publishedAt < t

/-- The requested sequence number or instant lies outside the retained range. -/
def Store.Outside (env : Env) : StartPosition → Prop
  | .first | .new => False
  | .seq n => n < st.floor stream next ∨ next < n
  | .time t => st.OutsideTime stream t
  | .rel offset => st.OutsideTime stream (unixMilli (env.now + offset))

def Store.BeforeAll (t : ℤ) : Prop := st.messagesOf stream ≠ [] ∧ ∀ m ∈ st.messagesOf stream, t < m.publishedAt

/-- The position points before the first stored message. -/
def Store.BelowFloor (env : Env) : StartPosition → Prop
  | .first | .new => False
  | .seq n => st.messagesOf stream ≠ [] ∧ n < st.floor stream next
  | .time t => st.BeforeAll stream t
  | .rel offset => st.BeforeAll stream (unixMilli (env.now + offset))

end Positions

section Resolve

variable {st : Store}

/-- On a stream with messages the first of them is below the head. -/
theorem floor_lt_iff (hb : st.Bounded stream next) : st.floor stream next < next ↔ st.messagesOf stream ≠ [] := by
  constructor
  · intro hlt hnil
    rw [Store.floor, Store.firstSeq, hnil] at hlt
    exact lt_irrefl _ hlt
  · intro hne
    obtain ⟨m, hm⟩ := List.exists_mem_of_ne_nil _ hne
    exact (Store.Bounded.floor_le hm).trans_lt (hb.mem hm).2

theorem clampCursor_eq {n first : ℤ} (h : first ≤ next) : clampCursor n first next = max first (min n next) := by
  unfold clampCursor
  split_ifs <;> omega

theorem messagesSince_eq_nil : st.messagesSince stream t = [] ↔ ∀ m ∈ st.messagesOf stream, m.publishedAt < t := by
  rw [Store.messagesSince, List.eq_nil_iff_forall_not_mem]
  simp only [List.mem_insertionSort, List.mem_filter, decide_eq_true_eq, not_and, not_le, ge_iff_le]

/-- The first of them is the earliest, and the lowest of those of one time. -/
theorem messagesSince_head {m : MessageRow} {ms : List MessageRow} (hs : st.messagesSince stream t = m :: ms) :
    m ∈ st.messagesOf stream ∧ t ≤ m.publishedAt ∧ ∀ m' ∈ st.messagesOf stream, t ≤ m'.publishedAt →
      m.publishedAt < m'.publishedAt ∨ m.publishedAt = m'.publishedAt ∧ m.seq ≤ m'.seq := by
  have hmem : ∀ x, x ∈ m :: ms ↔ x ∈ st.messagesOf stream ∧ t ≤ x.publishedAt := fun x => by
    rw [← hs, Store.messagesSince, List.mem_insertionSort, List.mem_filter, decide_eq_true_eq, ge_iff_le]
  have : Std.Total fun a b : MessageRow => a.publishedAt < b.publishedAt ∨
      (a.publishedAt = b.publishedAt ∧ a.seq ≤ b.seq) :=
    ⟨fun a b => by omega⟩
  have : IsTrans MessageRow fun a b => a.publishedAt < b.publishedAt ∨
      (a.publishedAt = b.publishedAt ∧ a.seq ≤ b.seq) :=
    ⟨fun a b c => by omega⟩
  have hsorted := List.pairwise_insertionSort
    (fun a b : MessageRow => a.publishedAt < b.publishedAt ∨ (a.publishedAt = b.publishedAt ∧ a.seq ≤ b.seq))
    ((st.messagesOf stream).filter fun m => m.publishedAt ≥ t)
  rw [← Store.messagesSince, hs, List.pairwise_cons] at hsorted
  obtain ⟨hm, ht⟩ := (hmem m).mp List.mem_cons_self
  refine ⟨hm, ht, fun m' hm' ht' => ?_⟩
  rcases List.mem_cons.mp ((hmem m').mpr ⟨hm', ht'⟩) with rfl | hin
  · exact .inr ⟨rfl, le_rfl⟩
  · exact hsorted.1 m' hin

theorem resolveTimeStart_spec (t : ℤ) : st.FirstSince stream next t (st.resolveTimeStart stream t next).1 ∧
    ((st.resolveTimeStart stream t next).2 = true ↔ st.BeforeAll stream t) := by
  unfold Store.resolveTimeStart
  cases hs : st.messagesSince stream t with
  | nil =>
    have hlt := messagesSince_eq_nil.mp hs
    refine ⟨.inr ⟨hlt, rfl⟩, iff_of_false Bool.false_ne_true fun ⟨hne, hall⟩ => ?_⟩
    obtain ⟨m, hm⟩ := List.exists_mem_of_ne_nil _ hne
    exact lt_asymm (hlt m hm) (hall m hm)
  | cons m ms =>
    obtain ⟨hm, ht, hleast⟩ := messagesSince_head hs
    refine ⟨.inl ⟨m, hm, rfl, ht, hleast⟩, ?_⟩
    have hne : st.messagesOf stream ≠ [] := List.ne_nil_of_mem hm
    cases hmin : ((st.messagesOf stream).map MessageRow.publishedAt).min? with
    | none => exact absurd (List.map_eq_nil_iff.mp (List.min?_eq_none_iff.mp hmin)) hne
    | some oldest =>
      obtain ⟨hold, hle⟩ := List.min?_eq_some_iff.mp hmin
      obtain ⟨m₀, hm₀, rfl⟩ := List.mem_map.mp hold
      rw [decide_eq_true_eq]
      exact ⟨fun hlt => ⟨hne, fun m' hm' => hlt.trans_le (hle _ (List.mem_map_of_mem hm'))⟩, fun hall => hall.2 m₀ hm₀⟩

theorem streamBounds_eq (hh : st.streamSeq.find? stream = some head) :
    streamBounds stream st = .ok ((st.floor stream head.next, head.next), st) := by
  rw [streamBounds, run_bind_ok (run_get.mpr ⟨rfl, rfl⟩), hh]
  rfl

theorem resolveStartPosition_spec (env : Env) (hh : st.streamSeq.find? stream = some head)
    (hb : st.Bounded stream head.next) (dest : StartPosition) : ∃ cursor below,
      resolveStartPosition env stream dest st = .ok ((cursor, below), st) ∧
      st.Denotes stream head.next env cursor dest ∧ (below = true ↔ st.BelowFloor stream head.next env dest) := by
  have hfloor := hb.floor.2
  rw [resolveStartPosition, run_bind_ok (streamBounds_eq hh)]
  cases dest with
  | first => exact ⟨_, _, rfl, rfl, iff_of_false Bool.false_ne_true id⟩
  | new => exact ⟨_, _, rfl, rfl, iff_of_false Bool.false_ne_true id⟩
  | seq n =>
    refine ⟨_, _, rfl, clampCursor_eq hfloor, ?_⟩
    rw [decide_eq_true_eq, clampCursor_eq hfloor, Store.BelowFloor, ← floor_lt_iff hb]
    omega
  | time t => exact ⟨_, _, rfl, resolveTimeStart_spec t⟩
  | rel offset => exact ⟨_, _, rfl, resolveTimeStart_spec _⟩

end Resolve

/-! ## The command -/

/-- What a seek of the consumer to `cursor` answers and writes. -/
def Store.soughtTo (st : Store) (c : ConsumerRow) (actor : Bytes) (cursor : ℤ) (clamped : Bool) : SeekResult × Store :=
  let dropped := (st.pendingOf c.stream c.name).length
  ({ cursorBefore := c.cursorSeq, cursorAfter := cursor, pendingDropped := dropped,
     messages := ((st.messagesOf c.stream).filter fun m => m.seq ≥ cursor).length, clamped,
     generation := c.generation + 1 },
   { st with
     deliveries := st.deliveries.delete fun d => d.stream == c.stream && d.consumer == c.name
     consumers := st.consumers.update (fun r => r.key == (c.stream, c.name))
       (fun r => { r with cursorSeq := cursor, generation := r.generation + 1 }) fun _ _ => rfl }.logged {
     ts := 0, name := .consumerSeek, stream := nullStr c.stream, consumer := nullStr c.name, actor := nullStr actor,
     detail := .seek c.cursorSeq cursor dropped clamped })

section Seek

variable {st : Store} {c : ConsumerRow}

theorem seek_eq (env : Env) (dest : StartPosition) (actor : Bytes) {below : Bool}
    (hc : st.consumers.find? (c.stream, c.name) = some c) (hh : st.streamSeq.find? c.stream = some head)
    (hr : resolveStartPosition env c.stream dest st = .ok ((cursor, below), st)) :
    seek env c.stream c.name dest false actor st = if below then .error (.refused .seekBelowFloor) else
      .ok (st.soughtTo c actor cursor (st.seekClamped c.stream dest cursor
        (st.floor c.stream head.next) head.next)) := by
  rw [seek, run_bind_ok (run_get.mpr ⟨rfl, rfl⟩), hc]
  show (resolveStartPosition env c.stream dest >>= _) st = _
  rw [run_bind_ok hr]
  cases below with
  | true => rfl
  | false =>
    show (streamBounds c.stream >>= _) st = _
    rw [run_bind_ok (streamBounds_eq hh)]
    rfl

/-- Unless the instant is before all messages, it is outside when it is after them. -/
theorem outsideTime_iff (h : ¬ st.BeforeAll stream t) :
    st.OutsideTime stream t ↔ ∀ m ∈ st.messagesOf stream, m.publishedAt < t := by
  refine ⟨fun ho => ho.elim (fun hall m hm => ?_) id, .inr⟩
  exact absurd ⟨List.ne_nil_of_mem hm, hall⟩ h

theorem isEmpty_messagesSince :
    (st.messagesSince stream t).isEmpty = true ↔ ∀ m ∈ st.messagesOf stream, m.publishedAt < t :=
  List.isEmpty_iff.trans messagesSince_eq_nil

/-- The report is right for every position but a relative time, which it takes for the time 0. -/
theorem seekClamped_iff (hb : st.Bounded stream next) (hd : st.Denotes stream next env cursor dest)
    (hno : ¬ st.BelowFloor stream next env dest) (habs : ∀ offset, dest ≠ .rel offset) :
    st.seekClamped stream dest cursor (st.floor stream next) next = true ↔ st.Outside stream next env dest := by
  have hfloor := hb.floor.2
  cases dest with
  | first | new => exact iff_of_false Bool.false_ne_true id
  | seq n =>
    simp only [Store.Denotes] at hd
    simp only [Store.seekClamped, decide_eq_true_eq, clampCursor_eq hfloor, hd, and_true, Store.Outside]
    omega
  | time t => exact isEmpty_messagesSince.trans (outsideTime_iff hno).symm
  | rel offset => exact absurd rfl (habs offset)

/-- The consumer stands where the position says, in a new generation and with nothing pending, and the reply says so. -/
structure SeekMoves (env : Env) (st : Store) (c : ConsumerRow) (dest : StartPosition) (res : SeekResult) (st' : Store) :
    Prop where
  cursor : st.Denotes c.stream (st.headOf c.stream) env res.cursorAfter dest
  range : st.floor c.stream (st.headOf c.stream) ≤ res.cursorAfter ∧ res.cursorAfter ≤ st.headOf c.stream
  row : st'.consumers.find? (c.stream, c.name) =
    some { c with cursorSeq := res.cursorAfter, generation := c.generation + 1 }
  consumers : ∀ k, k ≠ (c.stream, c.name) → st'.consumers.find? k = st.consumers.find? k
  rows : ∀ k, st'.deliveries.find? k = if (k.1, k.2.1) = (c.stream, c.name) then none else st.deliveries.find? k
  clamped : res.clamped = true ↔ st.Outside c.stream (st.headOf c.stream) env dest

/-- A seek succeeds and moves the consumer, and a relative time does what the instant it denotes does. -/
def SeeksRight (env : Env) (st : Store) (c : ConsumerRow) (dest : StartPosition) (actor : Bytes) : Prop :=
  (∃ res st', seek env c.stream c.name dest false actor st = .ok (res, st') ∧ SeekMoves env st c dest res st') ∧
  ∀ offset, dest = .rel offset → seek env c.stream c.name dest false actor st =
    seek env c.stream c.name (.time (unixMilli (env.now + offset))) false actor st

/-- The position is not before the stored messages; and for a relative time there is a message at or after the epoch
just when there is one at or after the instant. -/
def Store.Reportable (st : Store) (env : Env) (stream : Bytes) (dest : StartPosition) : Prop :=
  ¬ st.BelowFloor stream (st.headOf stream) env dest ∧ ∀ offset, dest = .rel offset →
    ((∀ m ∈ st.messagesOf stream, m.publishedAt < 0) ↔
      ∀ m ∈ st.messagesOf stream, m.publishedAt < unixMilli (env.now + offset))

theorem soughtTo_moves {clamped : Bool} (hc : st.consumers.find? (c.stream, c.name) = some c)
    (hd : st.Denotes c.stream (st.headOf c.stream) env cursor dest)
    (hrange : st.floor c.stream (st.headOf c.stream) ≤ cursor ∧ cursor ≤ st.headOf c.stream)
    (hcl : clamped = true ↔ st.Outside c.stream (st.headOf c.stream) env dest) :
    SeekMoves env st c dest (st.soughtTo c actor cursor clamped).1 (st.soughtTo c actor cursor clamped).2 where
  cursor := hd
  range := hrange
  row := (find?_update_pair (fun r => { r with cursorSeq := cursor, generation := r.generation + 1 })
    fun _ _ => rfl).trans (by rw [hc]; rfl)
  consumers := (@confined_update (c.stream, c.name) st
    (fun r => { r with cursorSeq := cursor, generation := r.generation + 1 }) fun _ _ => rfl).consumers
  rows := find?_delete_pair st c.stream c.name
  clamped := hcl

end Seek

/-- A seek does what it should for the positions that are `Reportable`, and for no others. -/
theorem seek_moves_iff {h : List Visit} {b : Broker} (r : Runs h b) {env : Env} {c : ConsumerRow} {dest : StartPosition}
    {actor : Bytes} (hc : b.store.consumers.find? (c.stream, c.name) = some c) :
    SeeksRight env b.store c dest actor ↔ b.store.Reportable env c.stream dest := by
  obtain ⟨head, hh, hhead, hb⟩ := r.sound.bounded (k := c.key) (by simp [ConsumerRow.key, hc])
  simp only at hh hhead hb
  rw [← hhead] at hb
  obtain ⟨cursor, below, hr, hd, hbelow⟩ := resolveStartPosition_spec env hh (hhead ▸ hb) dest
  rw [← hhead] at hd hbelow
  have hrun := seek_eq env dest actor hc hh hr
  rw [← hhead] at hrun
  cases below with
  | true =>
    refine iff_of_false ?_ fun hrep => hrep.1 (hbelow.mp rfl)
    rintro ⟨⟨res, st', hok, -⟩, -⟩
    rw [hrun] at hok
    cases hok
  | false =>
    have hno : ¬ b.store.BelowFloor c.stream (b.store.headOf c.stream) env dest :=
      fun hb => Bool.false_ne_true (hbelow.mpr hb)
    have hrange : b.store.floor c.stream (b.store.headOf c.stream) ≤ cursor ∧ cursor ≤ b.store.headOf c.stream := by
      obtain ⟨-, row, hres⟩ := resolveStartPosition_run hr
      obtain rfl := Option.some.inj (hh.symm.trans hres.head)
      rw [hhead] at hb ⊢
      exact hres.range hb
    constructor
    · rintro ⟨⟨res, st', hok, hmoves⟩, -⟩
      rw [hrun] at hok
      obtain rfl : (b.store.soughtTo c actor cursor _).1 = res := congrArg Prod.fst (Except.ok.inj hok)
      refine ⟨hno, ?_⟩
      rintro offset rfl
      exact isEmpty_messagesSince.symm.trans (hmoves.clamped.trans (outsideTime_iff hno))
    · rintro ⟨-, hrel⟩
      refine ⟨⟨_, _, hrun, soughtTo_moves hc hd hrange ?_⟩, ?_⟩
      · cases dest with
        | rel offset => exact isEmpty_messagesSince.trans ((hrel offset rfl).trans (outsideTime_iff hno).symm)
        | _ => exact seekClamped_iff hb hd hno fun _ he => by cases he
      · rintro offset rfl
        have htime := seek_eq env (.time (unixMilli (env.now + offset))) actor hc hh hr
        rw [hrun, htime, ← hhead]
        -- only the reports could differ
        have hsame : (b.store.messagesSince c.stream 0).isEmpty =
            (b.store.messagesSince c.stream (unixMilli (env.now + offset))).isEmpty := by
          rw [Bool.eq_iff_iff, isEmpty_messagesSince, isEmpty_messagesSince]
          exact hrel offset rfl
        simp only [Store.seekClamped, hsame]

/-- A seek to the second of three messages. -/
theorem seek_moves_second : ∃ (c : ConsumerRow) (res : SeekResult) (st' : Store),
    seek (.atMs 10) c.stream c.name (.seq 2) false [] (playState (aSetup 3)).store = .ok (res, st') ∧
      SeekMoves (.atMs 10) (playState (aSetup 3)).store c (.seq 2) res st' := by
  obtain ⟨c, hc⟩ := Option.isSome_iff_exists.mp
    (show ((playState (aSetup 3)).store.consumers.find? (aStream, aConsumer)).isSome = true by decide +kernel)
  have hfloor : ¬ 2 < (playState (aSetup 3)).store.floor aStream
      ((playState (aSetup 3)).store.headOf aStream) := by decide +kernel
  obtain ⟨hs, hn⟩ := pair_of_find? hc
  rw [← hs, ← hn] at hc
  rw [← hs] at hfloor
  have hrep : (playState (aSetup 3)).store.Reportable (.atMs 10) c.stream (.seq 2) :=
    ⟨fun hb => hfloor hb.2, fun _ => nofun⟩
  obtain ⟨⟨res, st', hok, hmoves⟩, -⟩ := (seek_moves_iff (runs_play (aSetup 3)) hc).mpr hrep
  exact ⟨c, res, st', hok, hmoves⟩

/-- Sequence number 0 is refused where 1 is the first; and five milliseconds before 20 is reported in range, 15 is
not. -/
theorem seek_not_right : Runs (play (aSetup 1)) (playState (aSetup 1)) ∧
    (seek (.atMs 20) aStream aConsumer (.seq 0) false [] (playState (aSetup 1)).store).toOption.isNone ∧
    ((playState (aSetup 1)).store.messagesOf aStream).map (fun m => (m.seq, m.publishedAt)) = [(1, 3)] ∧
    (seek (.atMs 20) aStream aConsumer (.rel (-5 * millisecond)) false []
      (playState (aSetup 1)).store).toOption.map (fun p => (p.1.cursorAfter, p.1.clamped)) = some (2, false) ∧
    (seek (.atMs 20) aStream aConsumer (.time 15) false []
      (playState (aSetup 1)).store).toOption.map (fun p => (p.1.cursorAfter, p.1.clamped)) = some (2, true) :=
  ⟨runs_play _, by decide +kernel⟩

/-! ## Positions in time -/

section Time

variable {st : Store}

/-- The position `p` separates what was published before `t` from what was published at or after it; where there is
nothing of the latter, it is the head. -/
structure Store.Splits (st : Store) (stream : Bytes) (t p next : ℤ) : Prop where
  since : ∀ m ∈ st.messagesOf stream, p ≤ m.seq → t ≤ m.publishedAt
  before : ∀ m ∈ st.messagesOf stream, m.seq < p → m.publishedAt < t
  head : (∀ m ∈ st.messagesOf stream, m.publishedAt < t) → p = next

/-- The first message since `t`, in the order of the stamps, splits a stream whose stamps follow its numbers. -/
theorem Store.FirstSince.splits {p : ℤ} (h : st.FirstSince stream next t p)
    (hnext : ∀ m ∈ st.messagesOf stream, m.seq < next)
    (horder : ∀ m ∈ st.messagesOf stream, ∀ k ∈ st.messagesOf stream, m.seq ≤ k.seq → m.publishedAt ≤ k.publishedAt) :
    st.Splits stream t p next := by
  rcases h with ⟨m, hm, rfl, ht, hleast⟩ | ⟨hnone, rfl⟩
  · refine ⟨fun k hk hle => ht.trans (horder m hm k hk hle), fun k hk hlt => ?_, fun hnone => ?_⟩
    · by_contra hge
      rcases hleast k hk (not_lt.mp hge) with hpub | ⟨-, hseq⟩
      · exact absurd (horder k hk m hm hlt.le) (not_le.mpr hpub)
      · exact absurd hlt (not_lt.mpr hseq)
    · exact absurd (hnone m hm) (not_lt.mpr ht)
  · exact ⟨fun k hk hle => absurd (hnext k hk) (not_lt.mpr hle), fun k hk _ => hnone k hk, fun _ => rfl⟩

/-- Where the store resolves a position: on the stream of a new consumer, once no reap holds it, and on the stream of a
consumer that seeks. -/
def Store.Resolves (st : Store) (stream : Bytes) : Prop :=
  refuseDuringReap stream st = .ok ((), st) ∨ ∃ name, st.consumers.find? (stream, name) ≠ none

theorem createConsumer_resolves {cfg : ConsumerConfig} {start : StartPosition} {r : ConsumerCreateResult}
    (h : createConsumer env stream cfg start actor st = .ok (r, st')) : st.Resolves stream := by
  simp only [createConsumer, run_bind] at h
  obtain ⟨_, _, h₁, -⟩ := h
  exact .inl (refuseDuringReap_ok (refuseDuringReap_run h₁).1)

theorem seek_resolves {name : Bytes} {dry : Bool} {r : SeekResult}
    (h : seek env stream name dest dry actor st = .ok (r, st')) : st.Resolves stream := by
  refine .inr ⟨name, fun hnone => ?_⟩
  rw [seek, run_bind_ok (run_get.mpr ⟨rfl, rfl⟩), hnone] at h
  cases h

theorem Store.Resolves.unmarked (h : st.Resolves stream) (hs : st.Sound) :
    st.metaTable.find? (.reap stream) = none := by
  rcases h with hpass | ⟨name, hname⟩
  · exact (refuseDuringReap_run hpass).1
  · exact (hs.home (stream, name) hname).2

/-- **Time positions.** In every reachable state, and wherever the store resolves it, a position in time splits the
stream. A dead-letter stream that comes back while its name is still being reaped may be out of order; no position is
resolved there. -/
theorem time_start_splits {h : List Visit} {b : Broker} (r : Runs h b) {head : SeqRow}
    (hcall : b.store.Resolves stream) (hh : b.store.streamSeq.find? stream = some head) (t : ℤ) :
    b.store.Splits stream t (b.store.resolveTimeStart stream t head.next).1 head.next := by
  have hopen := hcall.unmarked r.sound
  refine (resolveTimeStart_spec t).1.splits (fun m hm => ?_) fun m hm k hk hle => ?_
  · obtain ⟨hmem, rfl⟩ := mem_messagesOf.mp hm
    obtain ⟨row, hrow, -, hlt⟩ := r.sound.stored m.stream m.seq hopen (by simp [stored_of_mem hmem])
    rw [hh] at hrow
    cases hrow
    exact hlt
  · obtain ⟨hm, hms⟩ := mem_messagesOf.mp hm
    obtain ⟨hk, hks⟩ := mem_messagesOf.mp hk
    exact (r.chronicle stream).whole r.sound hopen hm hk hms hks hle

/-- The clock goes back between the first two messages. -/
def steppedBack : List (ℤ × Request) :=
  (1, aCreate) ::
    [10, 5, 20].map fun now => (now, aPublish)

theorem time_start_splits_steppedBack :
    ((playState steppedBack).store.messagesOf aStream).map (fun m => (m.seq, m.publishedAt)) =
      [(1, 10), (2, 10), (3, 20)] ∧
    (playState steppedBack).store.resolveTimeStart aStream 11 4 = (3, false) ∧
    (playState steppedBack).store.Splits aStream 11
      ((playState steppedBack).store.resolveTimeStart aStream 11 4).1 4 := by
  have hseq : ((playState steppedBack).store.streamSeq.find? aStream).map SeqRow.next = some 4 := by decide +kernel
  obtain ⟨head, hhead, hnext⟩ := Option.map_eq_some_iff.mp hseq
  have hopen : ((playState steppedBack).store.metaTable.find? (.reap aStream)).isNone = true := by decide +kernel
  have hpass := refuseDuringReap_ok (Option.isNone_iff_eq_none.mp hopen)
  have hsplits := time_start_splits (runs_play steppedBack) (.inl hpass) hhead 11
  rw [hnext] at hsplits
  exact ⟨by decide +kernel, by decide +kernel, hsplits⟩

end Time

end Messq

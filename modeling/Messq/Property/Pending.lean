import Messq.Run
import Messq.Store.Reads

/-! # Paging through pending deliveries

A page of the pending listing is ordered by deadline, and the cursor it hands out is the sequence number of its last
row. Following the cursors visits every row once exactly if every page ends with a row that parts the sequence numbers
before it from those after it (`pending_paged_iff`). -/

namespace Messq

open Lib Table

/-- What an `int32` holds. -/
def IsInt32 (v : ℤ) : Prop := -2147483648 ≤ v ∧ v ≤ maxInt32

section Pending

variable {st : Store} {c : ConsumerRow} {q : PendingQuery}

/-- The state and the age filter of a listing. -/
def PendingQuery.selects (q : PendingQuery) (d : DeliveryRow) : Bool :=
  (q.state == [] || (q.state == str "ready" && d.state == .ready) ||
    (q.state == str "inflight" && d.state == .inflight)) &&
    (q.olderThanMs ≤ 0 || d.visibleAt ≤ q.olderThanMs)

/-- The filter on the state is one of the three that exist. -/
def PendingQuery.Known (q : PendingQuery) : Prop := q.state = [] ∨ q.state = str "ready" ∨ q.state = str "inflight"

/-- The rows of a consumer that the filters match. -/
def Store.listed (st : Store) (c : ConsumerRow) (q : PendingQuery) : List DeliveryRow :=
  (st.pendingOf c.stream c.name).filter q.selects

/-- Following `next_after` visits each of these rows exactly once. -/
def Store.PendingPaged (st : Store) (c : ConsumerRow) (q : PendingQuery) : Prop :=
  ∃ ps, Walk (fun a => (st.pendingList c.stream c.name { q with after := a }).toOption) PendingList.nextAfter 0 ps ∧
    (ps.flatMap fun p => p.items.map PendingItem.seq).Perm ((st.listed c q).map DeliveryRow.seq)

/-! ## One page -/

/-- The rows behind a cursor, in the order of the listing. -/
def Store.listedAfter (st : Store) (c : ConsumerRow) (q : PendingQuery) (a : ℤ) : List DeliveryRow :=
  (pendingOrder (st.listed c q)).filter fun d => a ≤ 0 || a < d.seq

theorem seq_inj_pendingOf {a b : DeliveryRow} (ha : a ∈ st.pendingOf c.stream c.name)
    (hb : b ∈ st.pendingOf c.stream c.name)
    (h : a.seq = b.seq) : a = b := by
  obtain ⟨ha, hak⟩ := mem_select.mp ha
  obtain ⟨hb, hbk⟩ := mem_select.mp hb
  simp only [Bool.and_eq_true, beq_iff_eq] at hak hbk
  exact eq_of_key ha hb (by rw [DeliveryRow.key, DeliveryRow.key, hak.1, hak.2, hbk.1, hbk.2, h])

theorem pendingInt32_eq_ok {v w : ℤ} : pendingInt32 v = .ok w ↔ IsInt32 v ∧ v = w := by
  unfold pendingInt32 IsInt32
  split
  · rename_i h
    exact ⟨fun he => ⟨h, Except.ok.inj he⟩, fun he => congrArg _ he.2⟩
  · rename_i h
    exact ⟨fun he => (nomatch he), fun he => absurd he.1 h⟩

/-- Every column of the row can be read. -/
def Readable (c : ConsumerRow) (d : DeliveryRow) : Prop := IsInt32 c.maxDeliver ∧ IsInt32 d.generation

/-- A row of the listing as it is shown. -/
def pendingItem (c : ConsumerRow) (d : DeliveryRow) : PendingItem where
  seq := d.seq
  state := d.state
  attempts := d.attempts
  maxDeliver := c.maxDeliver
  visibleAt := d.visibleAt
  ackToken := if d.state = .inflight then some (queueToken c.stream c.name d.seq d.attempts d.generation) else none

theorem scanPending_eq_ok {d : DeliveryRow} {i : PendingItem} :
    scanPending c d = .ok i ↔ Readable c d ∧ pendingItem c d = i := by
  simp only [scanPending, bind_eq_ok, pendingInt32_eq_ok, pure_eq_ok]
  constructor
  · rintro ⟨_, ⟨hm, rfl⟩, _, ⟨hg, rfl⟩, h⟩
    exact ⟨⟨hm, hg⟩, h⟩
  · rintro ⟨⟨hm, hg⟩, h⟩
    exact ⟨_, ⟨hm, rfl⟩, _, ⟨hg, rfl⟩, h⟩

theorem pendingState_known (h : q.Known) : ∃ f, pendingState q.state = .ok f ∧ ∀ d, (f d && (q.olderThanMs ≤ 0 ||
    d.visibleAt ≤ q.olderThanMs)) = q.selects d := by
  unfold PendingQuery.selects
  rcases h with h | h | h <;> rw [h]
  · exact ⟨_, rfl, fun d => rfl⟩
  · have hne : (str "ready" == []) = false ∧ (str "ready" == str "inflight") = false := by decide
    exact ⟨_, rfl, fun d => by simp [hne]⟩
  · have hne : (str "inflight" == []) = false ∧ (str "inflight" == str "ready") = false := by decide
    exact ⟨_, rfl, fun d => by simp [hne]⟩

theorem pendingOrder_after {f : DeliveryRow → Bool} (a : ℤ)
    (hf : ∀ d, (f d && (q.olderThanMs ≤ 0 || d.visibleAt ≤ q.olderThanMs)) = q.selects d) :
    pendingOrder ((st.pendingOf c.stream c.name).filter fun d => f d && (a ≤ 0 || a < d.seq) &&
      (q.olderThanMs ≤ 0 || d.visibleAt ≤ q.olderThanMs)) = st.listedAfter c q a := by
  simp only [Store.listedAfter, Store.listed, pendingOrder]
  rw [← orderBy_filter (fun d : DeliveryRow => toLex (d.visibleAt, d.seq)), List.filter_filter]
  · refine congrArg _ (List.filter_congr fun d _ => ?_)
    rw [← hf, Bool.and_right_comm, Bool.and_comm]
  · intro a ha b hb he
    exact seq_inj_pendingOf (List.mem_of_mem_filter ha) (List.mem_of_mem_filter hb) (congrArg (fun x => (ofLex x).2) he)

/-- A page of the listing fails at a row that cannot be read, and a full one hands out a cursor. -/
theorem pendingList_eq (hc : c ∈ st.consumers) (hs : q.Known) (hl : 1 ≤ q.limit) (a : ℤ) :
    st.pendingList c.stream c.name { q with after := a } =
      (((st.listedAfter c q a).take q.limit.toNat).mapM (scanPending c)).map fun items => {
        stream := c.stream, consumer := c.name, limit := q.limit, items := items,
        nextAfter := if items.length = q.limit.toNat then items.getLast?.map PendingItem.seq else none } := by
  obtain ⟨f, hf, hsel⟩ := pendingState_known hs
  have hfind : st.consumers.find? (c.stream, c.name) = some c := find?_of_mem hc
  have hneg : ¬ q.limit < 0 := by omega
  have hzero : ¬ q.limit = 0 := by omega
  simp only [Store.pendingList, if_neg hneg, if_neg hzero, hf, hfind, Option.toList_some, List.flatMap_singleton,
    sqlLimit, ← List.map_take, List.mapM_map]
  rw [Lib.ok_bind, pendingOrder_after a hsel]
  change ((((st.listedAfter c q a).take q.limit.toNat).mapM (scanPending c)) >>= _) = _
  cases ((st.listedAfter c q a).take q.limit.toNat).mapM (scanPending c) with
  | error e => rfl
  | ok items =>
    have hfull : ((items.length : ℤ) = q.limit ∧ q.limit > 0 ∧ items.length > 0) ↔
      items.length = q.limit.toNat := by omega
    show Except.ok _ = Except.ok _
    rw [max_self]
    simp only [hfull]

theorem mapM_scanPending {rows : List DeliveryRow} {items : List PendingItem} :
    rows.mapM (scanPending c) = .ok items ↔ (∀ d ∈ rows, Readable c d) ∧ rows.map (pendingItem c) = items := by
  rw [mapM_eq_ok]
  simp only [scanPending_eq_ok]
  rw [List.forall₂_and_left, ← List.forall₂_eq_eq_eq, List.forall₂_map_left_iff]

/-! ## The walk -/

theorem listed_eq_of_seq {d d' : DeliveryRow} (hd : d ∈ st.listed c q) (hd' : d' ∈ st.listed c q) (h : d.seq = d'.seq) :
    d = d' := seq_inj_pendingOf (List.mem_of_mem_filter hd) (List.mem_of_mem_filter hd') h

theorem perm_pendingOrder (rows : List DeliveryRow) : (pendingOrder rows).Perm rows := List.perm_insertionSort _ _

theorem mem_listedAfter {a : ℤ} {d : DeliveryRow} (h : d ∈ st.listedAfter c q a) : d ∈ st.listed c q :=
  (perm_pendingOrder _).mem_iff.mp (List.mem_of_mem_filter h)

theorem map_seq_listedAfter (a : ℤ) : (st.listedAfter c q a).map DeliveryRow.seq =
    behind a ((pendingOrder (st.listed c q)).map DeliveryRow.seq) := by
  rw [behind, List.filter_map]
  rfl

/-- The pages of the listing are pages of sequence numbers in the order of the deadlines. -/
theorem keyset_pending (hc : c ∈ st.consumers) (hs : q.Known) (hl : 1 ≤ q.limit) :
    Keyset (fun a => (st.pendingList c.stream c.name { q with after := a }).toOption) PendingList.nextAfter
      (fun p => p.items.map PendingItem.seq) (fun x => ∀ d ∈ st.listed c q, d.seq = x → Readable c d) q.limit.toNat
      ((pendingOrder (st.listed c q)).map DeliveryRow.seq) where
  pos := by omega
  nodup := by
    refine ((perm_pendingOrder _).map _).nodup_iff.mpr ?_
    refine (List.nodup_map_iff_inj_on (st.deliveries.nodup_select.filter _)).mpr ?_
    exact fun a ha b hb he => listed_eq_of_seq ha hb he
  reads a hok := by
    rw [← map_seq_listedAfter, ← List.map_take] at hok ⊢
    have hread := mapM_scanPending.mpr ⟨fun d hd => hok d.seq (List.mem_map_of_mem hd) d
      (mem_listedAfter (List.mem_of_mem_take hd)) rfl, rfl⟩
    refine ⟨_, by rw [pendingList_eq hc hs hl, hread]; rfl, ?_, ?_⟩
    · rw [List.map_map]
      rfl
    · simp only [List.length_map, List.length_take, List.getLast?_map, Option.map_map]
      have hfull : min q.limit.toNat (st.listedAfter c q a).length = q.limit.toNat ↔
          q.limit.toNat ≤ (st.listedAfter c q a).length := min_eq_left_iff
      simp only [hfull]
      rfl
  fails a := by
    rintro ⟨x, hx, hno⟩
    rw [← map_seq_listedAfter, ← List.map_take] at hx
    obtain ⟨d, hd, rfl⟩ := List.mem_map.mp hx
    rw [pendingList_eq hc hs hl]
    cases hm : ((st.listedAfter c q a).take q.limit.toNat).mapM (scanPending c) with
    | error e => rfl
    | ok items =>
      refine absurd (fun d' hd' he => ?_) hno
      rw [listed_eq_of_seq hd' (mem_listedAfter (List.mem_of_mem_take hd)) he]
      exact (mapM_scanPending.mp hm).1 d hd

/-- **Pending.** Following `next_after` visits every matching row of the consumer exactly once, exactly if every row can
be read and every page, in the order of the deadlines, ends with a number above all before it and below all after it. -/
theorem pending_paged_iff (hc : c ∈ st.consumers) (hs : q.Known) (hl : 1 ≤ q.limit) : st.PendingPaged c q ↔
    (∀ d ∈ st.listed c q, Readable c d) ∧
      Boundaries q.limit.toNat ((pendingOrder (st.listed c q)).map DeliveryRow.seq) := by
  have hread : (∀ d ∈ st.listed c q, Readable c d) ↔ ∀ x ∈ (pendingOrder (st.listed c q)).map DeliveryRow.seq,
      ∀ d ∈ st.listed c q, d.seq = x → Readable c d := by
    constructor
    · exact fun h _ _ d hd _ => h d hd
    · exact fun h d hd => h d.seq (List.mem_map_of_mem ((perm_pendingOrder _).mem_iff.mpr hd)) d hd rfl
  rw [hread, ← (keyset_pending hc hs hl).complete_iff]
  refine exists_congr fun ps => and_congr_right fun _ => ?_
  have hperm := (perm_pendingOrder (st.listed c q)).map DeliveryRow.seq
  exact ⟨fun h => h.trans hperm.symm, fun h => h.trans hperm⟩

/-- Two messages in flight with one deadline, a page each. -/
theorem pending_paged_two :
    let b := playState (aSetup 2 ++ [(10, aFetch 2)])
    ∃ c ∈ b.store.consumers, (b.store.listed c { limit := 1 }).length = 2 ∧ b.store.PendingPaged c { limit := 1 } := by
  intro b
  have hstate : ∃ c ∈ b.store.consumers, (b.store.listed c { limit := 1 }).length = 2 ∧
      (∀ d ∈ b.store.listed c { limit := 1 }, (-2147483648 ≤ c.maxDeliver ∧ c.maxDeliver ≤ maxInt32) ∧
        -2147483648 ≤ d.generation ∧ d.generation ≤ maxInt32) ∧
      (pendingOrder (b.store.listed c { limit := 1 })).map DeliveryRow.seq = [1, 2] := by decide +kernel
  generalize b = b at *
  obtain ⟨c, hc, hlen, hread, hseqs⟩ := hstate
  refine ⟨c, hc, hlen, (pending_paged_iff hc (.inl rfl) (le_refl 1)).mpr ⟨hread, ?_⟩⟩
  rw [hseqs]
  exact boundaries_of_sorted (by decide) (by decide)

/-- The first of two messages is in flight, so it is listed behind the second, and the cursor of the first page passes
it. -/
theorem pending_skips :
    let life := aSetup 2 ++ [(10, aFetch 1)]
    Runs (play life) (playState life) ∧ ∃ c ∈ (playState life).store.consumers,
      (pendingOrder ((playState life).store.listed c { limit := 1 })).map DeliveryRow.seq = [2, 1] ∧
      ((playState life).store.pendingList c.stream c.name { limit := 1 }).toOption.map
        (fun p => (p.items.map PendingItem.seq, p.nextAfter)) = some ([2], some 2) ∧
      ((playState life).store.pendingList c.stream c.name { limit := 1, after := 2 }).toOption.map
        (fun p => (p.items.map PendingItem.seq, p.nextAfter)) = some ([], none) :=
  ⟨runs_play _, by decide +kernel⟩

end Pending

end Messq

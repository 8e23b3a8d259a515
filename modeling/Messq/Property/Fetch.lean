import Messq.Property.Chronicle
import Messq.Property.Order
import Messq.Property.Terms

/-! # What a fetch hands out

- of the visible ready rows a fetch claims the longest beginning that fits its batch and its byte budget
  (`chooseClaims_longest`), the first one whatever its size; the rows it claims get a deadline, the others stay, and it
  commits unless the attempts of a row are used up (`fetch_claims_longest`);
- the pending set does not grow beyond its bound (`admitMatches_pending`). -/

namespace Messq

open Lib Table

variable {consumer stream : Bytes} {c : ConsumerRow} {env : Env} {maxBytes nowMs : ℤ} {p : ℤ × ℤ}

/-! ## The longest beginning -/

/-- A batch of messages of these sizes may be handed out: one of any size, or several within the byte budget. -/
def Affordable (batch : ℕ) (maxBytes : ℤ) (sizes : List ℤ) : Prop :=
  sizes.length ≤ batch ∧ (sizes.length ≤ 1 ∨ sizes.sum ≤ maxBytes)

/-- `n` is the length of the longest affordable beginning. -/
structure Longest (batch : ℕ) (maxBytes : ℤ) (sizes : List ℤ) (n : ℕ) : Prop where
  le : n ≤ sizes.length
  affordable : Affordable batch maxBytes (sizes.take n)
  longest : ∀ m ≤ sizes.length, Affordable batch maxBytes (sizes.take m) → m ≤ n

section Longest

variable {used : ℤ} {cs : List (ℤ × ℤ)}

/-- The budget takes a beginning that fits, and stops where the next size does not. -/
theorem withinBudget_take (maxBytes used : ℤ) (cs : List (ℤ × ℤ)) : ∃ n ≤ cs.length,
    withinBudget maxBytes used cs = (cs.take n).map Prod.fst ∧
    (0 < n → used + ((cs.take n).map Prod.snd).sum ≤ maxBytes) ∧
    (n < cs.length → maxBytes < used + ((cs.take (n + 1)).map Prod.snd).sum) := by
  induction cs generalizing used with
  | nil => exact ⟨0, le_rfl, rfl, by simp, by simp⟩
  | cons c cs ih =>
    rw [withinBudget]
    split
    · rename_i hover
      exact ⟨0, Nat.zero_le _, rfl, by simp, fun _ => by simpa using hover⟩
    · rename_i hfit
      obtain ⟨n, hn, heq, hsum, hstop⟩ := ih (used + c.2)
      refine ⟨n + 1, Nat.succ_le_succ hn, by rw [heq]; rfl, fun _ => ?_, fun hlt => ?_⟩
      · rw [List.take_succ_cons, List.map_cons, List.sum_cons]
        rcases Nat.eq_zero_or_pos n with rfl | hpos
        · simp only [List.take_zero, List.map_nil, List.sum_nil]
          omega
        · have := hsum hpos
          omega
      · have := hstop (by simpa using hlt)
        rw [List.take_succ_cons, List.map_cons, List.sum_cons]
        omega

theorem sum_take_le {l : List ℤ} (h : ∀ x ∈ l, 0 ≤ x) {m n : ℕ} (hmn : m ≤ n) : (l.take m).sum ≤ (l.take n).sum :=
  (List.take_sublist_take_left hmn).sum_le_sum fun x hx => h x (List.mem_of_mem_take hx)

/-- A fetch chooses the longest affordable beginning of the candidates. -/
theorem chooseClaims_longest (maxBytes : ℤ) (hsize : ∀ c ∈ cs, 0 ≤ c.2) (batch : ℕ) :
    ∃ n, Longest batch maxBytes (cs.map Prod.snd) n ∧ chooseClaims maxBytes (cs.take batch) =
      (cs.take n).map Prod.fst := by
  cases cs with
  | nil => exact ⟨0, ⟨le_rfl, by simp [Affordable], by simp⟩, by simp [chooseClaims]⟩
  | cons c cs =>
    cases batch with
    | zero =>
      refine ⟨0, ⟨Nat.zero_le _, by simp [Affordable], fun m hm ha => ?_⟩, by simp [chooseClaims]⟩
      have := ha.1
      rw [List.length_take] at this
      omega
    | succ batch =>
      obtain ⟨n, hn, heq, hsum, hstop⟩ := withinBudget_take maxBytes c.2 (cs.take batch)
      rw [List.length_take] at hn hstop
      have htake : (cs.take batch).take n = cs.take n := by rw [List.take_take, Nat.min_eq_left (by omega)]
      rw [htake] at heq hsum
      have hsizes : ∀ x ∈ (c :: cs).map Prod.snd, 0 ≤ x := fun x hx => by
        obtain ⟨y, hy, rfl⟩ := List.mem_map.mp hx
        exact hsize y hy
      refine ⟨n + 1, ⟨by simp; omega, ⟨by simp; omega, ?_⟩, fun m hm ha => ?_⟩, ?_⟩
      · rcases Nat.eq_zero_or_pos n with rfl | hpos
        · exact .inl (by simp)
        · refine .inr ?_
          rw [List.map_cons, List.take_succ_cons, List.sum_cons, ← List.map_take]
          exact hsum hpos
      · -- one more size than the budget took does not fit, and the sizes only add up
        by_contra hlt
        have hlen := ha.1
        rw [List.length_take] at hlen
        rw [List.length_map, List.length_cons] at hm hlen
        have hover := hstop (by omega)
        rw [List.take_take, Nat.min_eq_left (by omega)] at hover
        have hle := sum_take_le hsizes (show n + 2 ≤ m by omega)
        rw [List.map_cons, List.take_succ_cons, List.sum_cons, ← List.map_take] at hle
        rcases ha.2 with hone | hfit
        · rw [List.length_take, List.length_map, List.length_cons] at hone
          omega
        · rw [List.map_cons] at hfit
          omega
      · rw [List.take_succ_cons, List.take_succ_cons, chooseClaims, heq]
        rfl

end Longest

/-! ## Candidates -/

/-- The visible ready rows, in sequence order. -/
def Store.visibleOf (st : Store) (stream consumer : Bytes) (nowMs : ℤ) : List DeliveryRow :=
  ((st.pendingOf stream consumer).filter fun d => d.state == .ready && d.visibleAt ≤ nowMs).insertionSort
    fun a b => a.seq ≤ b.seq

/-- The size of the message a row names. -/
def Store.sizeOf (st : Store) (d : DeliveryRow) : ℤ :=
  ((st.messages.find? (d.stream, d.seq)).map MessageRow.size).getD 0

section Candidates

variable {st st' : Store}

theorem mem_visibleOf {d : DeliveryRow} : d ∈ st.visibleOf stream consumer nowMs ↔
    (d ∈ st.deliveries ∧ d.stream = stream ∧ d.consumer = consumer) ∧ d.state = .ready ∧ d.visibleAt ≤ nowMs := by
  simp [Store.visibleOf, mem_pendingOf]

/-- With every row backed by a message, all visible rows are candidates. -/
theorem claimCandidates_eq (hb : ∀ d ∈ st.pendingOf stream consumer, st.messages.find? (stream, d.seq) ≠ none) :
    st.claimCandidates stream consumer nowMs = (st.visibleOf stream consumer nowMs).map fun d =>
      (d.seq, st.sizeOf d) := by
  have hmap : ((st.pendingOf stream consumer).filter fun d => d.state == .ready && d.visibleAt ≤
      nowMs).filterMap (fun d =>
      (st.messages.find? (stream, d.seq)).map fun m => (d.seq, m.size)) =
      ((st.pendingOf stream consumer).filter fun d => d.state == .ready && d.visibleAt ≤ nowMs).map fun d =>
        (d.seq, st.sizeOf d) := by
    rw [← List.filterMap_eq_map]
    refine List.filterMap_congr fun d hd => ?_
    have hd := List.mem_of_mem_filter hd
    obtain ⟨m, hm⟩ := Option.ne_none_iff_exists'.mp (hb d hd)
    simp [Store.sizeOf, (mem_pendingOf.mp hd).2.1, hm]
  rw [Store.claimCandidates, hmap, Store.visibleOf]
  exact (List.map_insertionSort (fun a b : DeliveryRow => a.seq ≤ b.seq) (fun a b : ℤ × ℤ => a.1 ≤ b.1)
    (fun d => (d.seq, st.sizeOf d)) _ fun _ _ _ _ => Iff.rfl).symm

end Candidates

/-! ## The pending set -/

section Pending

variable {st st' : Store}

/-- The scan counts the pending rows as it goes, and admits none at the bound. -/
theorem admitMatches_pending (pats : Subject.PatternSet) (ms : List MessageRow) (acc : Admission)
    (h : acc.pending = (acc.deliveries.select fun d => d.stream == c.stream && d.consumer == c.name).length) :
    ((((admitMatches pats c acc ms).deliveries.select fun d =>
      d.stream == c.stream && d.consumer == c.name).length : ℕ) : ℤ) ≤ max acc.pending c.maxAckPending := by
  induction ms generalizing acc with
  | nil => exact h ▸ le_max_left _ _
  | cons m ms ih =>
    rw [admitMatches]
    split
    · exact ih acc h
    split
    · exact h ▸ le_max_left _ _
    · rename_i hbound
      cases hins : acc.deliveries.insert (readyRow c m) with
      | none => exact ih { acc with conflicts := acc.conflicts + 1 } h
      | some t =>
        have hcount : acc.pending + 1 = (t.select fun d => d.stream == c.stream && d.consumer == c.name).length := by
          rw [h, Table.select, Table.select, rows_insert hins, List.filter_append]
          simp [readyRow]
        refine (ih { acc with deliveries := t, pending := acc.pending + 1 } hcount).trans (max_le ?_ (le_max_right _ _))
        exact le_max_of_le_right (by simpa using hbound)

theorem fetchAdmit_pending {next : ℤ} (h : fetchAdmit env c next st = .ok (p, st')) :
    ((st'.pendingOf c.stream c.name).length : ℤ) ≤ max ((st.pendingOf c.stream c.name).length : ℤ) c.maxAckPending := by
  simp only [fetchAdmit, run_get_bind] at h
  rw [run_ite] at h
  split at h
  · simp only [run_bind, run_pure] at h
    obtain ⟨_, _, h, -, rfl⟩ := h
    rw [Store.pendingOf, (flowBlocked_run h).2.2]
    exact le_max_left _ _
  · simp only [topUp, run_get_bind] at h
    cases hpats : Subject.parseSet c.filters with
    | error e => simp only [hpats, fail_run] at h
    | ok pats =>
      simp only [hpats, setCursor, run_set_bind, run_modify_bind, run_pure] at h
      obtain ⟨_, _, rfl, -, rfl⟩ := h
      exact admitMatches_pending pats _
        { deliveries := st.deliveries, pending := (st.pendingOf c.stream c.name).length } rfl

end Pending

/-! ## The claim of a fetch -/

section Claim

variable {batch : ℕ} {res : FetchResult} {st st₁ st' : Store}

/-- A claim changes rows in place. -/
theorem claimReady_pending {ackWaitMs : ℤ} {claimed : List Claimed}
    (h : claimReady stream consumer nowMs ackWaitMs batch maxBytes st = .ok (claimed, st')) :
    (st'.pendingOf stream consumer).length = (st.pendingOf stream consumer).length := by
  obtain ⟨-, -, rfl⟩ := claimReady_spec h
  exact length_select_update st.deliveries (fun d => d.claim nowMs ackWaitMs) (fun _ _ => rfl) fun _ _ => rfl

/-- The visible rows a fetch takes, `n` of them: the state after the top-up is `st₁`. -/
structure ClaimsLongest (env : Env) (c : ConsumerRow) (batch : ℕ) (maxBytes : ℤ) (st st₁ : Store)
    (claimed : List Claimed)
    (st' : Store) (n : ℕ) : Prop where
  longest : Longest batch maxBytes ((st₁.visibleOf c.stream c.name env.nowMs).map st₁.sizeOf) n
  some : st₁.visibleOf c.stream c.name env.nowMs ≠ [] → 1 ≤ n
  seqs : claimed.map Claimed.seq = ((st₁.visibleOf c.stream c.name env.nowMs).take n).map DeliveryRow.seq
  rows : ∀ d ∈ (st₁.visibleOf c.stream c.name env.nowMs).take n, st'.deliveries.find? d.key =
    Option.some { d with state := .inflight, attempts := d.attempts + 1, visibleAt := env.nowMs + c.ackWaitMs,
                         deliveredAt := Option.some env.nowMs }
  others : ∀ k d, st.deliveries.find? k = Option.some d → d ∉ (st₁.visibleOf c.stream c.name env.nowMs).take n →
    st'.deliveries.find? k = Option.some d
  bound : ((st'.pendingOf c.stream c.name).length : ℤ) ≤ max ((st.pendingOf c.stream c.name).length : ℤ) c.maxAckPending

/-- The rows of the pair after the top-up are backed. -/
theorem admitted_backed {head : SeqRow} (hs : st.Sound) (hb : st.Backed) (hc : st.consumers.find? c.key = some c)
    (hhead : st.streamSeq.find? c.stream = some head) (h : fetchAdmit env c head.next st = .ok (p, st₁)) :
    ToppedUp st c head.next p.1 st₁ ∧ st₁.messages = st.messages ∧
      ∀ d ∈ st₁.pendingOf c.stream c.name, st₁.messages.find? (c.stream, d.seq) ≠ none := by
  obtain ⟨hconf, htop⟩ := fetchAdmit_run hc h
  obtain ⟨head', hhead', -, hbound⟩ := hs.bounded (k := c.key) (by simp [hc])
  obtain rfl : head = head' := Option.some.inj (hhead.symm.trans hhead')
  refine ⟨htop hbound, hconf.messages, fun d hd => ?_⟩
  obtain ⟨hmem, hstream, hname⟩ := mem_pendingOf.mp hd
  have hrow : st₁.deliveries.find? (c.stream, c.name, d.seq) = some d := by
    rw [← hstream, ← hname]
    exact find?_of_mem hmem
  obtain ⟨m, hm, -⟩ := (htop hbound).backs hb hrow
  rw [hconf.messages, hm]
  exact Option.some_ne_none m

/-- **Claim.** What a fetch that commits has taken. -/
theorem claimsLongest_of_fetch {h : List Visit} {b : Broker} (r : Runs h b) (hm : ∀ v ∈ h, ReapsMarked v)
    (hc : b.store.consumers.find? (c.stream, c.name) = some c) (hp : c.paused = false) (hbatch : 1 ≤ batch)
    (hf : fetch env c.stream c.name batch maxBytes b.store = .ok (res, st')) :
    ∃ head ans st₁ n, b.store.streamSeq.find? c.stream = some head ∧ fetchAdmit env c head.next b.store =
      .ok (ans, st₁) ∧
      ClaimsLongest env c batch maxBytes b.store st₁ res.claimed st' n := by
  obtain ⟨c', hc', -, -, -, -, hcases⟩ := fetch_cases hf
  obtain rfl : c = c' := Option.some.inj (hc.symm.trans hc')
  obtain ⟨hp', -⟩ | ⟨-, head, conflicts, st₁, st₂, u, hhead, h₁, h₂, h₃, -⟩ := hcases
  · rw [hp] at hp'
    cases hp'
  obtain ⟨htop, hmsg, hback⟩ := admitted_backed r.sound (r.backed hm) hc hhead h₁
  obtain ⟨-, -, hclaims⟩ := claimReady_run h₂
  obtain ⟨-, -, hrows⟩ := commitEvents_run c.key (fun e he => by
    obtain ⟨x, -, rfl⟩ := List.mem_map.mp he; rfl) h₃
  have hseqs := (claimReady_spec h₂).1
  rw [claimCandidates_eq hback] at hseqs
  have hsize : ∀ x ∈ (st₁.visibleOf c.stream c.name env.nowMs).map (fun d => (d.seq, st₁.sizeOf d)), 0 ≤ x.2 := by
    intro x hx
    obtain ⟨d, -, rfl⟩ := List.mem_map.mp hx
    rw [Store.sizeOf, hmsg]
    cases hfind : b.store.messages.find? (d.stream, d.seq) with
    | none => exact le_rfl
    | some m =>
      show 0 ≤ m.size
      rw [r.sized m (mem_of_find? hfind)]
      exact Int.natCast_nonneg _
  obtain ⟨n, hlongest, hchosen⟩ := chooseClaims_longest maxBytes hsize batch
  rw [hchosen, ← List.map_take, List.map_map] at hseqs
  rw [List.map_map] at hlongest
  refine ⟨head, _, st₁, n, hhead, h₁, ⟨hlongest, fun hne => ?_, hseqs, fun d hd => ?_, fun k d hd hn => ?_, ?_⟩⟩
  · refine hlongest.longest 1 ?_ ⟨?_, .inl ?_⟩
    · rw [List.length_map]
      exact List.length_pos_iff.mpr hne
    · exact (List.length_take_le _ _).trans hbatch
    · exact List.length_take_le _ _
  · obtain ⟨⟨hmem, hstream, hname⟩, -⟩ := mem_visibleOf.mp (List.mem_of_mem_take hd)
    have hseq : d.seq ∈ res.claimed.map Claimed.seq := by
      rw [hseqs]
      exact List.mem_map.mpr ⟨d, hd, rfl⟩
    rw [hrows, hclaims.deliveries, if_pos ⟨hstream, hname, hseq⟩, find?_of_mem hmem]
    rfl
  · have hkept := htop.kept k d hd
    rw [hrows, hclaims.deliveries, if_neg, hkept]
    rintro ⟨hk₁, hk₂, hk₃⟩
    rw [hseqs] at hk₃
    obtain ⟨d', hd', hseq⟩ := List.mem_map.mp hk₃
    obtain ⟨⟨hmem, hstream, hname⟩, -⟩ := mem_visibleOf.mp (List.mem_of_mem_take hd')
    refine hn ?_
    obtain rfl : d' = d := by
      refine eq_of_key hmem (mem_of_find? hkept) ?_
      have hseq : d'.seq = k.2.2 := hseq
      rw [find?_key hkept, DeliveryRow.key, hstream, hname, ← hk₁, ← hk₂, hseq]
    exact hd'
  · rw [Store.pendingOf, hrows, ← Store.pendingOf, claimReady_pending h₂]
    exact fetchAdmit_pending h₁

/-! ## The commit of a fetch -/

theorem succeeds_fetchAdmit (hpats : ∃ set, Subject.parseSet c.filters = .ok set) (env : Env) (next : ℤ) (st : Store) :
    Succeeds (fetchAdmit env c next) st := by
  refine (succeeds_get st).bind fun st₀ st₁ _ => ?_
  dsimp only
  split
  · refine Succeeds.bind (Succeeds.bind ?_ fun due st₂ _ => ?_) fun _ _ _ => succeeds_pure _ _
    · refine (succeeds_get st₁).bind fun _ st₂ _ => ?_
      split
      · exact succeeds_pure _ _
      · exact (succeeds_set _ st₂).bind fun _ _ _ => succeeds_pure _ _
    · split
      · exact succeeds_commitEvent _ _
      · exact succeeds_pure _ _
  · obtain ⟨set, hset⟩ := hpats
    refine (succeeds_get st₁).bind fun _ st₂ _ => ?_
    rw [hset]
    exact (succeeds_set _ st₂).bind fun _ st₃ _ => (succeeds_modify _ st₃).bind fun _ _ _ => succeeds_pure _ _

/-- The attempts of the rows fit into their column. -/
theorem succeeds_scanAttempts {seqs : List ℤ} (h : ∀ q ∈ seqs, ∀ d, st.deliveries.find? (stream, consumer, q) = some d →
    0 ≤ d.attempts ∧ d.attempts ≤ maxInt32) (st₁ : Store) : Succeeds (scanAttempts st stream consumer seqs) st₁ := by
  induction seqs generalizing st₁ with
  | nil => exact succeeds_pure _ _
  | cons q seqs ih =>
    refine (succeeds_scanInt32 ?_ st₁).bind fun _ st₂ _ =>
      (ih (fun q' hq' => h q' (List.mem_cons_of_mem _ hq')) st₂).bind fun _ _ _ => succeeds_pure _ _
    cases hd : st.deliveries.find? (stream, consumer, q) with
    | none => decide
    | some d =>
      obtain ⟨h0, hle⟩ := h q List.mem_cons_self d hd
      exact ⟨(show (-2147483648 : ℤ) ≤ 0 by decide).trans h0, hle⟩

theorem succeeds_claimReady (ackWaitMs : ℤ) (hatt : ∀ q d, st.deliveries.find? (stream, consumer, q) = some d →
    d.state = .ready → 0 ≤ d.attempts ∧ d.attempts < maxInt32) :
    Succeeds (claimReady stream consumer nowMs ackWaitMs batch maxBytes) st := by
  refine (succeeds_get st).bind fun _ _ hget => ?_
  obtain ⟨rfl, rfl⟩ := run_get.mp hget
  have hchosen := chooseClaims_chosen st stream consumer nowMs maxBytes batch
  refine Succeeds.bind ((succeeds_modify _ st).bind fun _ st₁ hmod => (succeeds_get st₁).bind fun _ st₂ hget => ?_)
    fun _ _ _ => succeeds_pure _ _
  obtain ⟨rfl, rfl⟩ := run_get.mp hget
  obtain rfl := run_modify.mp hmod
  refine succeeds_scanAttempts (fun q hq d' hd' => ?_) _
  obtain ⟨d, hd, rfl⟩ := Option.map_eq_some_iff.mp
    ((find?_update st.deliveries _ (fun d => d.claim nowMs ackWaitMs) (fun _ _ => rfl) _).symm.trans hd')
  obtain ⟨⟨d₀, hd₀, hready, -⟩, -⟩ := hchosen.claimable q hq
  obtain rfl : d₀ = d := Option.some.inj (hd₀.symm.trans hd)
  obtain ⟨h0, hlt⟩ := hatt q d₀ hd hready
  split
  · exact ⟨by show 0 ≤ d₀.attempts + 1; omega, by show d₀.attempts + 1 ≤ maxInt32; omega⟩
  · exact ⟨h0, hlt.le⟩

theorem succeeds_fetch {h : List Visit} {b : Broker} (r : Runs h b)
    (hc : b.store.consumers.find? (c.stream, c.name) = some c)
    (hatt : ∀ d ∈ b.store.pendingOf c.stream c.name, d.state = .ready → d.attempts < maxInt32) :
    Succeeds (fetch env c.stream c.name batch maxBytes) b.store := by
  obtain ⟨-, hmax⟩ := r.sound.config _ c hc
  obtain ⟨head, hhead, -, hbound⟩ := r.sound.bounded (k := c.key) (by rw [ConsumerRow.key, hc]; simp)
  refine (succeeds_get b.store).bind fun _ _ hget => ?_
  obtain ⟨rfl, rfl⟩ := run_get.mp hget
  rw [hc]
  refine (succeeds_scanInt32 (by unfold maxDeliverCap at hmax; unfold maxInt32; omega) b.store).bind
    fun _ st₀ hscan => ?_
  obtain ⟨-, -, rfl⟩ := scanInt32_run.mp hscan
  split
  · exact succeeds_pure _ _
  rw [show b.store.streamSeq.find? c.stream = some head from hhead]
  refine (succeeds_fetchAdmit (r.patterns hc) env head.next b.store).bind fun p st₁ hadm => ?_
  have htop := (fetchAdmit_run (show b.store.consumers.find? c.key = some c from hc) hadm).2 hbound
  refine (succeeds_claimReady _ fun q d hd hready => ?_).bind fun _ st₂ _ =>
    (succeeds_commitEvents _ st₂).bind fun _ st₃ _ => (succeeds_get st₃).bind fun _ _ _ => succeeds_pure _ _
  rcases htop.fresh q d hd with hold | ⟨-, -, m, -, rfl⟩
  · refine ⟨(r.sound.ledger _ c hc).attempts q d.slot (slot_eq_some.mpr ⟨d, hold, rfl⟩), hatt d ?_ hready⟩
    have hk : d.key = (c.stream, c.name, q) := find?_key hold
    simp only [DeliveryRow.key, Prod.mk.injEq] at hk
    exact mem_pendingOf.mpr ⟨mem_of_find? hold, hk.1, hk.2.1⟩
  · exact ⟨le_rfl, show (0 : ℤ) < maxInt32 by decide⟩

/-- In a run whose reap chunks run under their markers, a fetch claims the longest affordable beginning of the rows that
are visible after its top-up, leaves the others, and keeps the pending set within its bound. It commits when no ready
row of the consumer has used up its attempts. -/
theorem fetch_claims_longest {h : List Visit} {b : Broker} (r : Runs h b) (hm : ∀ v ∈ h, ReapsMarked v)
    (hc : b.store.consumers.find? (c.stream, c.name) = some c) (hp : c.paused = false) (hbatch : 1 ≤ batch) :
    (∀ res st', fetch env c.stream c.name batch maxBytes b.store = .ok (res, st') →
      ∃ head ans st₁ n, b.store.streamSeq.find? c.stream = some head ∧
        fetchAdmit env c head.next b.store = .ok (ans, st₁) ∧
        ClaimsLongest env c batch maxBytes b.store st₁ res.claimed st' n) ∧
    ((∀ d ∈ b.store.pendingOf c.stream c.name, d.state = .ready → d.attempts < maxInt32) →
      Succeeds (fetch env c.stream c.name batch maxBytes) b.store) :=
  ⟨fun _ _ hf => claimsLongest_of_fetch r hm hc hp hbatch hf, succeeds_fetch r hc⟩

end Claim

/-- Of three visible messages a batch of two takes the first two. -/
theorem fetch_claims_longest_two : ∃ c res st' head ans st₁ n,
    fetch (.atMs 20) c.stream c.name 2 100 (playState (aSetup 3)).store = .ok (res, st') ∧
    fetchAdmit (.atMs 20) c (SeqRow.next head) (playState (aSetup 3)).store = .ok (ans, st₁) ∧
    res.claimed.map Claimed.seq = [1, 2] ∧
    ClaimsLongest (.atMs 20) c 2 100 (playState (aSetup 3)).store st₁ res.claimed st' n := by
  have hcon : ((playState (aSetup 3)).store.consumers.find? (aStream, aConsumer)).map ConsumerRow.paused =
      some false := by decide +kernel
  obtain ⟨c, hc, hp⟩ := Option.map_eq_some_iff.mp hcon
  have hrun : ∀ p, fetch (.atMs 20) aStream aConsumer 2 100 (playState (aSetup 3)).store = .ok p →
      p.1.claimed.map Claimed.seq = [1, 2] := fun p hp => by
    have : (fetch (.atMs 20) aStream aConsumer 2 100 (playState (aSetup 3)).store).toOption.map
      (fun p => p.1.claimed.map Claimed.seq) = some [1, 2] := by decide +kernel
    rw [hp] at this
    exact Option.some.inj this
  have hrows : ∀ d ∈ (playState (aSetup 3)).store.pendingOf aStream aConsumer, d.state = .ready →
      d.attempts < maxInt32 := by decide +kernel
  obtain ⟨hs, hn⟩ := pair_of_find? hc
  rw [← hs, ← hn] at hc hrun hrows
  obtain ⟨hclaim, hcommit⟩ : (∀ res st', fetch (.atMs 20) c.stream c.name 2 100 _ = .ok (res, st') → _) ∧ _ :=
    fetch_claims_longest (runs_play (aSetup 3)) (by decide +kernel) hc hp (by decide)
  obtain ⟨res, st', hf⟩ := hcommit hrows
  obtain ⟨head, ans, st₁, n, -, hadm, hclaims⟩ := hclaim res st' hf
  exact ⟨c, res, st', head, ans, st₁, n, hf, hadm, hrun _ hf, hclaims⟩

/-- A stray chunk has taken the message of row 2, which still waits when message 3 is published. -/
def strayRow : List (ℤ × Request) := strayChunk.take 10

/-- The next fetch passes row 2 over and claims 3. -/
theorem stray_row_passed_over :
    ¬ ∀ (h : List Visit) (b : Broker) (env : Env) (c : ConsumerRow) (batch : ℕ) (maxBytes : ℤ) (res : FetchResult)
        (st' : Store),
      Runs h b → b.store.consumers.find? (c.stream, c.name) = some c → c.paused = false → 1 ≤ batch →
      fetch env c.stream c.name batch maxBytes b.store = .ok (res, st') →
      ∃ head ans st₁ n, b.store.streamSeq.find? c.stream = some head ∧
        fetchAdmit env c head.next b.store = .ok (ans, st₁) ∧
        ClaimsLongest env c batch maxBytes b.store st₁ res.claimed st' n := by
  intro hall
  have hcon : ((playState strayRow).store.consumers.find? (aStream, aConsumer)).map ConsumerRow.paused =
      some false := by decide +kernel
  have hrun : (fetch (.atMs 20) aStream aConsumer 10 100 (playState strayRow).store).toOption.map
      (fun p => p.1.claimed.map Claimed.seq) = some [3] := by decide +kernel
  -- after the top-up both rows are visible
  have hseen : ((playState strayRow).store.consumers.find? (aStream, aConsumer)).bind (fun c =>
      ((playState strayRow).store.streamSeq.find? aStream).bind fun head =>
        (fetchAdmit (.atMs 20) c head.next (playState strayRow).store).toOption.map fun p =>
          (p.2.visibleOf aStream aConsumer (Env.atMs 20).nowMs).map DeliveryRow.seq) = some [2, 3] := by
    decide +kernel
  obtain ⟨c, hc, hp⟩ := Option.map_eq_some_iff.mp hcon
  obtain ⟨⟨res, st'⟩, hf, hseqs⟩ := ok_of_map hrun
  obtain ⟨hs, hn⟩ := pair_of_find? hc
  rw [hc, ← hs, ← hn] at hseen
  rw [← hs, ← hn] at hc hf
  obtain ⟨head, ans, st₁, n, hhead, hadm, hclaims⟩ := hall _ _ (.atMs 20) c 10 100 res st' (runs_play strayRow) hc hp
    (by decide) hf
  rw [Option.bind_some, hhead, Option.bind_some, hadm] at hseen
  have hvisible := Option.some.inj hseen
  have hclaimed := hclaims.seqs
  simp only at hseqs hvisible
  rw [hseqs, List.map_take, hvisible] at hclaimed
  cases n with
  | zero => cases hclaimed
  | succ n => exact absurd (List.cons.inj hclaimed).1 (by decide)

end Messq

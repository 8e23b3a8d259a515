import Messq.Effect.Consumer

/-! # What a fetch does

`topUp_run`: the cursor advances and every matching message it passes gets a row, whether the scan stopped at a
declined match, filled its window or reached the head. `claimReady_run`: the claimed rows are a prefix, in sequence
order, of the rows that are ready, visible and backed by a message. `fetch_run` puts the two together. -/

namespace Messq

open Lib Table Relation

variable {consumer stream : Bytes} {c : ConsumerRow} {env : Env} {st st' : Store} {batch limit : ℕ}
  {maxBytes next ackWaitMs nowMs pending : ℤ} {r : FetchResult} {claimed : List Claimed} {u : Unit} {p : ℤ × ℤ}

/-! ## The scan -/

/-- What the scan made of the messages it was given: it admitted a prefix and was stopped by the next match. -/
structure Scanned (pats : Subject.PatternSet) (c : ConsumerRow) (acc : Admission) (ms : List MessageRow)
    (acc' : Admission) (done rest : List MessageRow) : Prop where
  split : ms = done ++ rest
  stop : rest = [] ∧ acc'.declined = acc.declined ∨ ∃ m ms', rest = m :: ms' ∧ acc'.declined = some m.seq
  kept : ∀ k d, acc.deliveries.find? k = some d → acc'.deliveries.find? k = some d
  fresh : ∀ k d, acc'.deliveries.find? k = some d →
    acc.deliveries.find? k = some d ∨ ∃ m ∈ done, k = (c.stream, c.name, m.seq) ∧ d = readyRow c m
  covered : ∀ m ∈ done, pats.match m.subject = true → acc'.deliveries.find? (c.stream, c.name, m.seq) ≠ none

theorem admit_scanned (pats : Subject.PatternSet) (c : ConsumerRow) (acc : Admission) (ms : List MessageRow) :
    ∃ done rest, Scanned pats c acc ms (admitMatches pats c acc ms) done rest := by
  induction ms generalizing acc with
  | nil => exact ⟨[], [], rfl, .inl ⟨rfl, rfl⟩, fun _ _ h => h, fun _ _ h => .inl h, by simp⟩
  | cons m ms ih =>
    unfold admitMatches
    split
    · rename_i hno
      obtain ⟨done, rest, h⟩ := ih acc
      refine ⟨m :: done, rest, by rw [h.split]; rfl, h.stop, h.kept, fun k d hd => ?_, fun m' hm' hmatch => ?_⟩
      · rcases h.fresh k d hd with hold | ⟨m', hm', he⟩
        · exact .inl hold
        · exact .inr ⟨m', List.mem_cons_of_mem _ hm', he⟩
      · rcases List.mem_cons.mp hm' with rfl | hm'
        · simp [hmatch] at hno
        · exact h.covered m' hm' hmatch
    split
    · exact ⟨[], m :: ms, rfl, .inr ⟨m, ms, rfl, rfl⟩, fun _ _ h => h, fun _ _ h => .inl h, by simp⟩
    cases hins : acc.deliveries.insert (readyRow c m) with
    | none =>
      obtain ⟨d₀, hd₀⟩ := insert_eq_none.mp hins
      obtain ⟨done, rest, h⟩ := ih { acc with conflicts := acc.conflicts + 1 }
      refine ⟨m :: done, rest, by rw [h.split]; rfl, h.stop, h.kept, fun k d hd => ?_, fun m' hm' hmatch => ?_⟩
      · rcases h.fresh k d hd with hold | ⟨m', hm', he⟩
        · exact .inl hold
        · exact .inr ⟨m', List.mem_cons_of_mem _ hm', he⟩
      · rcases List.mem_cons.mp hm' with rfl | hm'
        · have := h.kept _ _ hd₀
          rw [show (c.stream, c.name, m'.seq) = (readyRow c m').key from rfl, this]
          simp
        · exact h.covered m' hm' hmatch
    | some t =>
      obtain ⟨done, rest, h⟩ := ih { acc with deliveries := t, pending := acc.pending + 1 }
      have hself : t.find? (c.stream, c.name, m.seq) = some (readyRow c m) :=
        (find?_insert hins _).trans (if_pos rfl)
      refine ⟨m :: done, rest, by rw [h.split]; rfl, h.stop, fun k d hd => h.kept k d ?_, fun k d hd => ?_,
        fun m' hm' hmatch => ?_⟩
      · have hne : k ≠ (readyRow c m).key := fun he => by
          rw [he, find?_of_insert hins] at hd
          cases hd
        exact (find?_insert hins k).trans (by rw [if_neg hne]; exact hd)
      · rcases h.fresh k d hd with hd | ⟨m', hm', he⟩
        · have hd := (find?_insert hins k).symm.trans hd
          split at hd
          · rename_i hk
            cases hd
            exact .inr ⟨m, List.mem_cons_self, hk, rfl⟩
          · exact .inl hd
        · exact .inr ⟨m', List.mem_cons_of_mem _ hm', he⟩
      · rcases List.mem_cons.mp hm' with rfl | hm'
        · rw [h.kept _ _ hself]
          simp
        · exact h.covered m' hm' hmatch

/-! ## The cursor -/

/-- All messages from the cursor on, in sequence order; the scan window is a prefix of it. -/
def Store.backlogOf (st : Store) (stream : Bytes) (cursor : ℤ) : List MessageRow :=
  ((st.messagesOf stream).filter fun m => m.seq ≥ cursor).insertionSort fun a b => a.seq ≤ b.seq

theorem mem_backlogOf {cursor : ℤ} {m : MessageRow} :
    m ∈ st.backlogOf stream cursor ↔ (m ∈ st.messages ∧ m.stream = stream) ∧ cursor ≤ m.seq := by
  simp [Store.backlogOf, mem_messagesOf]

theorem backlogOf_sorted (st : Store) (stream : Bytes) (cursor : ℤ) :
    (st.backlogOf stream cursor).Pairwise fun a b => a.seq < b.seq := by
  refine strict_orderBy MessageRow.seq (st.messages.nodup_select.filter _) fun a ha b hb he => ?_
  exact seq_inj_messagesOf (List.mem_of_mem_filter ha) (List.mem_of_mem_filter hb) he

/-- Whether the consumer asks for a subject. -/
def ConsumerRow.wants (c : ConsumerRow) (subject : Bytes) : Bool :=
  match Subject.parseSet c.filters with
  | .ok pats => pats.match subject
  | .error _ => false

/-- A scan that got through `done` and put the cursor at `cursor`, just above it. -/
structure Passed (st : Store) (stream : Bytes) (start cursor : ℤ) (done : List MessageRow) : Prop where
  le : start ≤ cursor
  below : ∀ m ∈ done, m.seq < cursor
  all : ∀ m ∈ st.backlogOf stream start, m.seq < cursor → m ∈ done

/-- The four ways the cursor advances: to a declined match, past a full window, to the head, or not at all. -/
theorem nextCursor_passed {start : ℤ} {acc acc' : Admission} {pats : Subject.PatternSet} {done rest : List MessageRow}
    (hb : st.Bounded stream next) (hacc : acc.declined = none)
    (h : Scanned pats c acc ((st.backlogOf stream start).take limit) acc' done rest) :
    Passed st stream start (nextCursor acc' ((st.backlogOf stream start).take limit) limit start next) done ∧
      (start ≤ next → nextCursor acc' ((st.backlogOf stream start).take limit) limit start next ≤ next) := by
  have hsplit := List.take_append_drop limit (st.backlogOf stream start)
  have hsort := backlogOf_sorted st stream start
  have hstart : ∀ m ∈ st.backlogOf stream start, start ≤ m.seq := fun m hm => (mem_backlogOf.mp hm).2
  have hnext : ∀ m ∈ st.backlogOf stream start, m.seq < next := fun m hm =>
    (hb.mem (mem_messagesOf.mpr (mem_backlogOf.mp hm).1)).2
  have hdone : ∀ m ∈ done, m ∈ st.backlogOf stream start := fun m hm =>
    List.mem_of_mem_take (h.split ▸ List.mem_append_left _ hm)
  unfold nextCursor
  rcases h.stop with ⟨rfl, hd⟩ | ⟨x, rest', rfl, hd⟩
  · have hwin : (st.backlogOf stream start).take limit = done := by rw [h.split, List.append_nil]
    simp only [hd, hacc]
    split
    · -- a full window
      rcases List.eq_nil_or_concat' done with rfl | ⟨done', x, rfl⟩
      · have h1 := hb.1
        rw [hwin]
        show Passed st stream start (if (1 : ℤ) < start then start else 1) [] ∧
          (_ → (if (1 : ℤ) < start then start else 1) ≤ _)
        refine ⟨⟨by omega, by simp, fun m hm hlt => ?_⟩, by omega⟩
        have := (hb.mem (mem_messagesOf.mpr (mem_backlogOf.mp hm).1)).1
        have := hstart m hm
        omega
      · have hx := hdone x (by simp)
        have hx1 := hstart x hx
        have hx2 := hnext x hx
        simp only [hwin, List.getLast?_concat, Option.map_some, Option.getD_some]
        rw [if_neg (by omega)]
        rw [hwin] at hsplit
        refine ⟨⟨by omega, fun m hm => ?_, fun m hm hlt => ?_⟩, by omega⟩
        · rw [← hsplit] at hsort
          obtain ⟨hsort, -, -⟩ := List.pairwise_append.mp hsort
          rcases List.mem_append.mp hm with hm | hm
          · have := (List.pairwise_append.mp hsort).2.2 m hm x (by simp)
            omega
          · rw [List.mem_singleton.mp hm]; omega
        · rw [← hsplit] at hm hsort
          rcases List.mem_append.mp hm with hm | hm
          · exact hm
          · have := (List.pairwise_append.mp hsort).2.2 x (by simp) m hm
            omega
    · -- a short window holds the whole backlog
      rename_i hlen
      have hall : st.backlogOf stream start = done := by
        rw [← hwin]
        refine (List.take_of_length_le ?_).symm
        rw [List.length_take] at hlen
        omega
      refine ⟨⟨by omega, fun m hm => ?_, fun m hm _ => hall ▸ hm⟩, by omega⟩
      have := hnext m (hdone m hm)
      split <;> omega
  · -- a declined match
    rw [h.split, List.append_assoc] at hsplit
    have hx : x ∈ st.backlogOf stream start := hsplit ▸ by simp
    have hx1 := hstart x hx
    have hx2 := hnext x hx
    simp only [hd]
    rw [if_neg (by omega)]
    refine ⟨⟨hx1, fun m hm => ?_, fun m hm hlt => ?_⟩, fun _ => hx2.le⟩
    · rw [← hsplit] at hsort
      exact (List.pairwise_append.mp hsort).2.2 m hm x (by simp)
    · rw [← hsplit] at hm hsort
      rcases List.mem_append.mp hm with hm | hm
      · exact hm
      · obtain ⟨-, htail, -⟩ := List.pairwise_append.mp hsort
        rw [List.cons_append] at hm htail
        rcases List.mem_cons.mp hm with rfl | hm
        · exact absurd hlt (lt_irrefl _)
        · exact absurd hlt ((List.pairwise_cons.mp htail).1 m hm).not_gt

/-! ## Top-up -/

/-- The admission half of a fetch, on the pair. -/
structure ToppedUp (st : Store) (c : ConsumerRow) (next cursor : ℤ) (st' : Store) : Prop where
  row : st'.consumers.find? c.key = some { c with cursorSeq := cursor }
  le : c.cursorSeq ≤ cursor
  head : c.cursorSeq ≤ next → cursor ≤ next
  kept : ∀ k d, st.deliveries.find? k = some d → st'.deliveries.find? k = some d
  fresh : ∀ q d, st'.deliveries.find? (c.stream, c.name, q) = some d →
    st.deliveries.find? (c.stream, c.name, q) = some d ∨
      (c.cursorSeq ≤ q ∧ q < cursor ∧ ∃ m, st.messages.find? (c.stream, q) = some m ∧ d = readyRow c m)
  covered : ∀ q m, c.cursorSeq ≤ q → q < cursor → st.messages.find? (c.stream, q) = some m → c.wants m.subject = true →
    st'.deliveries.find? (c.stream, c.name, q) ≠ none

theorem topUp_run (hc : st.consumers.find? c.key = some c) (h : topUp c pending next limit st = .ok (p, st')) :
    Confined st c.key st' ∧ (st.Bounded c.stream next → ToppedUp st c next p.1 st') := by
  simp only [topUp, run_get_bind] at h
  cases hp : Subject.parseSet c.filters with
  | error e => simp only [hp, fail_run] at h
  | ok pats =>
    simp only [hp, setCursor, run_set_bind, run_modify_bind, run_pure] at h
    obtain ⟨rfl, rfl⟩ := h
    obtain ⟨done, rest, hscan⟩ := admit_scanned pats c { deliveries := st.deliveries, pending := pending }
      (st.scanWindow c.stream c.cursorSeq limit)
    have hdone : ∀ m ∈ done, (m ∈ st.messages ∧ m.stream = c.stream) ∧ c.cursorSeq ≤ m.seq := fun m hm =>
      mem_backlogOf.mp (List.mem_of_mem_take (hscan.split ▸ List.mem_append_left _ hm))
    refine ⟨{ confined_update st with deliveries := fun k hk => ?_ }, fun hb => ?_⟩
    · refine Option.ext fun d => ⟨fun hd => ?_, hscan.kept k d⟩
      rcases hscan.fresh k d hd with hd | ⟨m, -, rfl, -⟩
      · exact hd
      · exact absurd rfl hk
    · obtain ⟨hpass, hhead⟩ := nextCursor_passed hb rfl hscan
      refine ⟨?_, hpass.le, hhead, fun k d => hscan.kept k d, fun q d hd => ?_, fun q m hq hlt hm hw => ?_⟩
      · exact find?_setCursor hc
      · refine (hscan.fresh _ d hd).imp_right ?_
        rintro ⟨m, hm, hk, rfl⟩
        obtain rfl : q = m.seq := by simpa using hk
        obtain ⟨⟨hmem, hs⟩, hge⟩ := hdone m hm
        exact ⟨hge, hpass.below m hm, m, by rw [← hs]; exact find?_of_mem hmem, rfl⟩
      · have hk : m.key = (c.stream, q) := find?_key hm
        obtain ⟨hs, rfl⟩ := Prod.mk.inj hk
        refine hscan.covered m (hpass.all m (mem_backlogOf.mpr ⟨⟨mem_of_find? hm, hs⟩, hq⟩) hlt) ?_
        simpa only [ConsumerRow.wants, hp] using hw

/-- No top-up: the consumer stays as it is. -/
theorem ToppedUp.refl (next : ℤ) (hc : st.consumers.find? c.key = some c) (hcons : st'.consumers = st.consumers)
    (hdel : st'.deliveries = st.deliveries) :
    ToppedUp st c next c.cursorSeq st' where
  row := by rw [hcons]; exact hc
  le := le_rfl
  head h := h
  kept k d hd := by rw [hdel]; exact hd
  fresh q d hd := .inl (by rw [← hdel]; exact hd)
  covered q m h₁ h₂ := absurd h₂ (not_lt.mpr h₁)

theorem flowBlocked_run (h : flowBlocked env c pending st = .ok (u, st')) :
    Confined st c.key st' ∧ st'.consumers = st.consumers ∧ st'.deliveries = st.deliveries := by
  simp only [flowBlocked, run_bind] at h
  obtain ⟨due, st₁, h₁, h⟩ := h
  have hflow : Confined st c.key st₁ ∧ st₁.consumers = st.consumers ∧ st₁.deliveries = st.deliveries := by
    simp only [flowBlockedDue, run_get_bind] at h₁
    rw [run_ite] at h₁
    split at h₁
    · obtain ⟨-, rfl⟩ := run_pure.mp h₁
      exact ⟨.refl st _, rfl, rfl⟩
    · simp only [run_set_bind, run_pure] at h₁
      obtain ⟨-, rfl⟩ := h₁
      exact ⟨{ Confined.refl st _ with }, rfl, rfl⟩
  rw [run_ite] at h
  split at h
  · refine ⟨hflow.1.committed rfl h, ?_⟩
    obtain rfl := commitEvent_run.mp h
    exact hflow.2
  · obtain ⟨-, rfl⟩ := run_pure.mp h
    exact hflow

theorem fetchAdmit_run (hc : st.consumers.find? c.key = some c) (h : fetchAdmit env c next st = .ok (p, st')) :
    Confined st c.key st' ∧ (st.Bounded c.stream next → ToppedUp st c next p.1 st') := by
  simp only [fetchAdmit, run_get_bind] at h
  rw [run_ite] at h
  split at h
  · simp only [run_bind, run_pure] at h
    obtain ⟨_, _, h, rfl, rfl⟩ := h
    obtain ⟨hconf, hcons, hdel⟩ := flowBlocked_run h
    exact ⟨hconf, fun _ => .refl next hc hcons hdel⟩
  · exact topUp_run hc h

/-! ## Claim -/

theorem withinBudget_prefix (maxBytes used : ℤ) (cs : List (ℤ × ℤ)) :
    ∃ rest, cs.map Prod.fst = withinBudget maxBytes used cs ++ rest := by
  induction cs generalizing used with
  | nil => exact ⟨[], rfl⟩
  | cons c cs ih =>
    unfold withinBudget
    split
    · exact ⟨_, rfl⟩
    · obtain ⟨rest, h⟩ := ih (used + c.2)
      exact ⟨rest, by rw [List.map_cons, h]; rfl⟩

theorem chooseClaims_prefix (maxBytes : ℤ) (cs : List (ℤ × ℤ)) :
    ∃ rest, cs.map Prod.fst = chooseClaims maxBytes cs ++ rest := by
  cases cs with
  | nil => exact ⟨[], rfl⟩
  | cons c cs =>
    obtain ⟨rest, h⟩ := withinBudget_prefix maxBytes c.2 cs
    exact ⟨rest, by rw [List.map_cons, h]; rfl⟩

/-- A row a claim may take. -/
def Store.Claimable (st : Store) (stream consumer : Bytes) (nowMs seq : ℤ) : Prop :=
  (∃ d, st.deliveries.find? (stream, consumer, seq) = some d ∧ d.state = .ready ∧ d.visibleAt ≤ nowMs) ∧
    st.messages.find? (stream, seq) ≠ none

theorem mem_claimCandidates {seq : ℤ} :
    seq ∈ (st.claimCandidates stream consumer nowMs).map Prod.fst ↔ st.Claimable stream consumer nowMs seq := by
  simp only [Store.claimCandidates, List.mem_map, List.mem_insertionSort, List.mem_filterMap, List.mem_filter,
    mem_pendingOf, Bool.and_eq_true, beq_iff_eq, decide_eq_true_eq, Option.map_eq_some_iff]
  constructor
  · rintro ⟨_, ⟨d, ⟨⟨hd, rfl, rfl⟩, hs, hv⟩, m, hm, rfl⟩, rfl⟩
    exact ⟨⟨d, find?_of_mem hd, hs, hv⟩, by simp [hm]⟩
  · rintro ⟨⟨d, hd, hs, hv⟩, hm⟩
    obtain ⟨m, hm⟩ := Option.ne_none_iff_exists'.mp hm
    have hk : d.key = (stream, consumer, seq) := find?_key hd
    simp only [DeliveryRow.key, Prod.mk.injEq] at hk
    obtain ⟨rfl, rfl, rfl⟩ := hk
    exact ⟨_, ⟨d, ⟨⟨mem_of_find? hd, rfl, rfl⟩, hs, hv⟩, m, hm, rfl⟩, rfl⟩

/-- What the chosen rows are: claimable, and below every claimable row that was not chosen. -/
structure Chosen (st : Store) (stream consumer : Bytes) (nowMs : ℤ) (chosen : List ℤ) : Prop where
  claimable : ∀ q ∈ chosen, st.Claimable stream consumer nowMs q
  first : ∀ q ∈ chosen, ∀ p, st.Claimable stream consumer nowMs p → p ∉ chosen → q ≤ p

theorem chooseClaims_chosen (st : Store) (stream consumer : Bytes) (nowMs maxBytes : ℤ) (batch : ℕ) :
    Chosen st stream consumer nowMs
      (chooseClaims maxBytes ((st.claimCandidates stream consumer nowMs).take batch)) := by
  obtain ⟨rest, h⟩ := chooseClaims_prefix maxBytes ((st.claimCandidates stream consumer nowMs).take batch)
  generalize chooseClaims maxBytes ((st.claimCandidates stream consumer nowMs).take batch) = chosen at h ⊢
  have hall : (st.claimCandidates stream consumer nowMs).map Prod.fst =
      chosen ++ (rest ++ ((st.claimCandidates stream consumer nowMs).drop batch).map Prod.fst) := by
    rw [← List.append_assoc, ← h, ← List.map_append, List.take_append_drop]
  have hsort : ((st.claimCandidates stream consumer nowMs).map Prod.fst).Pairwise (· ≤ ·) :=
    List.pairwise_map.mpr (pairwise_orderBy Prod.fst _)
  refine ⟨fun q hq => mem_claimCandidates.mp (hall ▸ List.mem_append_left _ hq), fun q hq p hp hpn => ?_⟩
  have hp := mem_claimCandidates.mpr hp
  rw [hall] at hp hsort
  exact (List.pairwise_append.mp hsort).2.2 q hq p ((List.mem_append.mp hp).resolve_left hpn)

theorem claimCandidates_nodup (st : Store) (stream consumer : Bytes) (nowMs : ℤ) :
    ((st.claimCandidates stream consumer nowMs).map Prod.fst).Nodup := by
  have hperm := (List.perm_insertionSort (fun a b : ℤ × ℤ => a.1 ≤ b.1)
    (((st.pendingOf stream consumer).filter fun d => d.state == .ready && d.visibleAt ≤ nowMs).filterMap fun d =>
      (st.messages.find? (stream, d.seq)).map fun m => (d.seq, m.size))).map Prod.fst
  refine hperm.nodup_iff.mpr ?_
  have hpend : (st.pendingOf stream consumer).Nodup := (List.Nodup.of_map _ st.deliveries.nodup).filter _
  rw [List.map_filterMap, List.Nodup, List.pairwise_filterMap]
  refine (hpend.filter _).imp_of_mem fun {d d'} hd hd' hne q hq q' hq' he => hne ?_
  obtain ⟨hd, hds, hdc⟩ := mem_pendingOf.mp (List.mem_of_mem_filter hd)
  obtain ⟨hd', hds', hdc'⟩ := mem_pendingOf.mp (List.mem_of_mem_filter hd')
  simp only [Option.map_map, Option.map_eq_some_iff, Function.comp_apply] at hq hq'
  obtain ⟨-, -, rfl⟩ := hq
  obtain ⟨-, -, rfl⟩ := hq'
  refine eq_of_key hd hd' ?_
  rw [DeliveryRow.key, DeliveryRow.key, hds, hds', hdc, hdc', he]

/-- The claim half of a fetch. -/
structure Claims (st : Store) (stream consumer : Bytes) (nowMs ackWaitMs : ℤ) (claimed : List Claimed) (st' : Store) :
    Prop where
  chosen : Chosen st stream consumer nowMs (claimed.map Claimed.seq)
  nodup : (claimed.map Claimed.seq).Nodup
  deliveries : ∀ k, st'.deliveries.find? k = if k.1 = stream ∧ k.2.1 = consumer ∧ k.2.2 ∈ claimed.map Claimed.seq then
    (st.deliveries.find? k).map (·.claim nowMs ackWaitMs) else st.deliveries.find? k
  attempts : ∀ x ∈ claimed, ((st'.deliveries.find? (stream, consumer, x.seq)).map
    DeliveryRow.attempts).getD 0 = x.attempt

theorem scanAttempts_run {st₁ st₂ : Store} {seqs : List ℤ} {ps : List (ℤ × ℤ)}
    (h : scanAttempts st stream consumer seqs st₁ = .ok (ps, st₂)) : st₁ = st₂ ∧ ps.map Prod.fst = seqs ∧
      ∀ p ∈ ps, ((st.deliveries.find? (stream, consumer, p.1)).map DeliveryRow.attempts).getD 0 = p.2 := by
  induction seqs generalizing ps st₁ with
  | nil =>
    obtain ⟨rfl, rfl⟩ := run_pure.mp h
    exact ⟨rfl, rfl, by simp⟩
  | cons seq seqs ih =>
    simp only [scanAttempts, run_bind, scanInt32_run, run_pure] at h
    obtain ⟨_, _, ⟨-, rfl, rfl⟩, ps', _, h, rfl, rfl⟩ := h
    obtain ⟨rfl, hmap, hps⟩ := ih h
    refine ⟨rfl, by rw [List.map_cons, hmap], fun p hp => ?_⟩
    rcases List.mem_cons.mp hp with rfl | hp
    · rfl
    · exact hps p hp

/-- A claim changes the chosen rows in place; each answer has the attempts its row then has. -/
theorem claimReady_spec (h : claimReady stream consumer nowMs ackWaitMs batch maxBytes st = .ok (claimed, st')) :
    claimed.map Claimed.seq = chooseClaims maxBytes ((st.claimCandidates stream consumer nowMs).take batch) ∧
      (∀ x ∈ claimed, ((st'.deliveries.find? (stream, consumer, x.seq)).map DeliveryRow.attempts).getD 0 = x.attempt) ∧
      st' = { st with
        deliveries := st.deliveries.update
          (fun d => d.stream == stream && d.consumer == consumer && (claimed.map Claimed.seq).contains d.seq)
          (fun d => d.claim nowMs ackWaitMs) fun _ _ => rfl } := by
  simp only [claimReady, applyClaim, run_bind, run_get_bind, run_modify_bind, run_pure] at h
  obtain ⟨ps, _, h, rfl, rfl⟩ := h
  obtain ⟨rfl, hmap, hps⟩ := scanAttempts_run h
  have hseqs : (ps.map fun p => (⟨p.1, p.2, nowMs + ackWaitMs, ackWaitMs⟩ : Claimed)).map Claimed.seq =
      chooseClaims maxBytes ((st.claimCandidates stream consumer nowMs).take batch) := by
    rw [← hmap, List.map_map]; rfl
  refine ⟨hseqs, fun x hx => ?_, by rw [hseqs]⟩
  obtain ⟨p, hp, rfl⟩ := List.mem_map.mp hx
  exact hps p hp

theorem claimReady_run (h : claimReady stream consumer nowMs ackWaitMs batch maxBytes st = .ok (claimed, st')) :
    Confined st (stream, consumer) st' ∧ st'.consumers = st.consumers ∧
      Claims st stream consumer nowMs ackWaitMs claimed st' := by
  obtain ⟨hseqs, hattempts, rfl⟩ := claimReady_spec h
  have hfind : ∀ k, (st.deliveries.update
      (fun d => d.stream == stream && d.consumer == consumer && (claimed.map Claimed.seq).contains d.seq)
      (fun d => d.claim nowMs ackWaitMs) fun _ _ => rfl).find? k =
      if k.1 = stream ∧ k.2.1 = consumer ∧ k.2.2 ∈ claimed.map Claimed.seq then
        (st.deliveries.find? k).map (·.claim nowMs ackWaitMs) else st.deliveries.find? k := by
    refine fun k => find?_update_key st.deliveries (f := fun d => d.claim nowMs ackWaitMs) (fun _ _ => rfl)
      (P := fun k => k.1 = stream ∧ k.2.1 = consumer ∧ k.2.2 ∈ claimed.map Claimed.seq) (fun d => ?_) k
    simp only [Bool.decide_and, Bool.beq_eq_decide_eq, List.contains_eq_mem, Bool.and_assoc]
  refine ⟨{ Confined.refl st (stream, consumer) with deliveries := fun k hk => ?_ }, rfl, ?_, ?_, hfind, hattempts⟩
  · refine (hfind k).trans (if_neg fun h => hk ?_)
    rw [h.1, h.2.1]
  · rw [hseqs]
    exact chooseClaims_chosen st stream consumer nowMs maxBytes batch
  · rw [hseqs]
    obtain ⟨rest, hrest⟩ := chooseClaims_prefix maxBytes ((st.claimCandidates stream consumer nowMs).take batch)
    have htake : (((st.claimCandidates stream consumer nowMs).take batch).map Prod.fst).Nodup :=
      (claimCandidates_nodup st stream consumer nowMs).sublist ((List.take_sublist _ _).map _)
    rw [hrest] at htake
    exact (List.nodup_append.mp htake).1

/-! ## The command -/

/-- What a fetch that is not held back by a pause does. -/
structure Fetched (st : Store) (env : Env) (c : ConsumerRow) (r : FetchResult) (st' : Store) : Prop where
  admitted : ∃ head st₁, st.streamSeq.find? c.stream = some head ∧ st₁.messages = st.messages ∧
    (st.Bounded c.stream head.next → ToppedUp st c head.next r.cursorSeq st₁) ∧
    Claims st₁ c.stream c.name env.nowMs c.ackWaitMs r.claimed st' ∧ st'.consumers = st₁.consumers

theorem commitEvents_run {es : List Event} (pair : Bytes × Bytes) (he : ∀ e ∈ es, e.allocation = none)
    (h : commitEvents es st = .ok (u, st')) :
    Confined st pair st' ∧ st'.consumers = st.consumers ∧ st'.deliveries = st.deliveries := by
  induction es generalizing st with
  | nil =>
    obtain ⟨-, rfl⟩ := run_pure.mp h
    exact ⟨.refl st _, rfl, rfl⟩
  | cons e es ih =>
    simp only [commitEvents, run_bind] at h
    obtain ⟨_, st₁, h₁, h⟩ := h
    obtain ⟨hconf, hcons, hdel⟩ := ih (fun e' h' => he e' (List.mem_cons_of_mem _ h')) h
    have h₀ : Confined st pair st₁ := (Confined.refl st pair).committed (he e List.mem_cons_self) h₁
    obtain rfl := commitEvent_run.mp h₁
    exact ⟨h₀.trans hconf, hcons, hdel⟩

/-- The two halves of a fetch, and what it answers besides the claimed rows; nothing of it on a paused consumer. -/
theorem fetch_cases (h : fetch env stream consumer batch maxBytes st = .ok (r, st')) :
    ∃ c, st.consumers.find? (stream, consumer) = some c ∧ r.stream = stream ∧ r.consumer = consumer ∧
      r.generation = c.generation ∧ r.nextVisibleMs = 0 ∧
      (c.paused = true ∧ r.claimed = [] ∧ st' = st ∨
        c.paused = false ∧ ∃ head conflicts st₁ st₂ u, st.streamSeq.find? stream = some head ∧
          fetchAdmit env c head.next st = .ok ((r.cursorSeq, conflicts), st₁) ∧
          claimReady stream consumer env.nowMs c.ackWaitMs batch maxBytes st₁ = .ok (r.claimed, st₂) ∧
          commitEvents (r.claimed.map (deliverEvent env.nowMs stream consumer)) st₂ = .ok (u, st') ∧
          r.hold = fetchHold (r.claimed.length = batch) (st'.pendingOf stream consumer).length r.cursorSeq head.next
            c.maxAckPending) := by
  simp only [fetch, run_get_bind] at h
  cases hc : st.consumers.find? (stream, consumer) with
  | none => simp only [hc, refuse_run] at h
  | some c =>
    simp only [hc, run_bind, scanInt32_run] at h
    obtain ⟨_, _, ⟨-, rfl, rfl⟩, h⟩ := h
    refine ⟨c, rfl, ?_⟩
    rw [run_ite] at h
    split at h
    · rename_i hp
      obtain ⟨rfl, rfl⟩ := run_pure.mp h
      exact ⟨rfl, rfl, rfl, rfl, .inl ⟨hp, rfl, rfl⟩⟩
    · rename_i hp
      cases hhead : st.streamSeq.find? stream with
      | none => simp only [hhead, refuse_run] at h
      | some head =>
        simp only [hhead, run_bind, run_get, run_pure] at h
        obtain ⟨p, st₁, h₁, claimed, st₂, h₂, u, st₃, h₃, _, _, ⟨rfl, rfl⟩, rfl, rfl⟩ := h
        exact ⟨rfl, rfl, rfl, rfl, .inr ⟨Bool.eq_false_iff.mpr hp, head, p.2, st₁, st₂, u, rfl, h₁, h₂, h₃, rfl⟩⟩

theorem fetch_run (h : fetch env stream consumer batch maxBytes st = .ok (r, st')) :
    ∃ c, st.consumers.find? (stream, consumer) = some c ∧ r.stream = stream ∧ r.consumer = consumer ∧
      r.generation = c.generation ∧ Confined st (stream, consumer) st' ∧
      (r.claimed = [] ∧ st' = st ∨ Fetched st env c r st') := by
  obtain ⟨c, hc, hs, hn, hg, -, ⟨-, hnil, rfl⟩ | ⟨-, head, conflicts, st₁, st₂, u, hhead, h₁, h₂, h₃, -⟩⟩ :=
    fetch_cases h
  · exact ⟨c, hc, hs, hn, hg, .refl _ _, .inl ⟨hnil, rfl⟩⟩
  · have hk : c.key = (stream, consumer) := find?_key hc
    obtain ⟨rfl, rfl⟩ := Prod.mk.inj hk
    obtain ⟨hconf₁, htop⟩ := fetchAdmit_run hc h₁
    obtain ⟨hconf₂, hcons₂, hclaims⟩ := claimReady_run h₂
    obtain ⟨hconf₃, hcons₃, hdel₃⟩ := commitEvents_run c.key (fun e he => by
      obtain ⟨x, -, rfl⟩ := List.mem_map.mp he; rfl) h₃
    refine ⟨c, hc, hs, hn, hg, (hconf₁.trans hconf₂).trans hconf₃, .inr ⟨head, st₁, hhead, hconf₁.messages, htop, ?_,
      hcons₃.trans hcons₂⟩⟩
    exact { hclaims with
      deliveries := fun k => by rw [hdel₃]; exact hclaims.deliveries k
      attempts := fun x hx => by rw [hdel₃]; exact hclaims.attempts x hx }

end Messq

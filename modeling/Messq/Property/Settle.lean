import Messq.Property.Fence
import Messq.Property.Generation
import Messq.Effect.Record

/-! # When a settle batch cannot fail

An unmarked error inside a settle aborts its group commit and latches the writer. `settle_total` gives the conditions
under which no choice of tokens and verbs produces one; each of them is about the state the batch finds or about its
size, and `settle_after_partial_purge` shows an ordinary way to break one. -/

namespace Messq

open Lib Table

variable {dlq : Bytes} {c : ConsumerRow} {policy : DeadPolicy} {r : ItemResult} {seen : List Bytes}
  {items rest : List SettleItem} {origin m : MessageRow} {st' st₁ st₂ : Store} {u : Unit} {d : DeadCtx} {env : Env}
  {it : SettleItem} {t : Token} {n : ℕ}

/-! ## Statements that succeed -/

theorem succeeds_require {α : Type} {f : Fault} {o : Option α} {a : α} (h : o = some a) (st : Store) :
    Succeeds (Tx.require f o) st := ⟨a, st, require_run.mpr ⟨h, rfl⟩⟩

section Fenced

variable {d : DeliveryRow} {st : Store} (hd : st.deliveries.find? t.row = some d) (hf : t.fences d = true)

include hd hf

theorem succeeds_fencedDelete : Succeeds (fencedDelete t) st := by
  refine (succeeds_get st).bind fun _ _ h => ?_
  obtain ⟨rfl, rfl⟩ := run_get.mp h
  have hone := select_eq_singleton (fun d hd => (Token.fences_iff.mp hd).1) hd hf
  exact Succeeds.bind ⟨(), st, requireOne_run.mpr ⟨by rw [hone]; rfl, rfl⟩⟩ fun _ _ _ => succeeds_set _ _

theorem succeeds_fencedUpdate {extra : DeliveryRow → Bool} {f : DeliveryRow → DeliveryRow} (hk)
    (he : extra d = true) : Succeeds (fencedUpdate t extra f hk) st := by
  refine (succeeds_get st).bind fun _ _ h => ?_
  obtain ⟨rfl, rfl⟩ := run_get.mp h
  have hone : st.deliveries.select (fun d => t.fences d && extra d) = [d] :=
    select_eq_singleton (fun d hd => (Token.fences_iff.mp (Bool.and_eq_true_iff.mp hd).1).1) hd (by simp [hf, he])
  exact Succeeds.bind ⟨(), st, requireOne_run.mpr ⟨by rw [hone]; rfl, rfl⟩⟩ fun _ _ _ => succeeds_set _ _

end Fenced

theorem succeeds_rejectionEvent (env : Env) (t : Token) (name : EventName) (reason : RejectReason) (res : ItemResult)
    (st : Store) : Succeeds (rejectionEvent env t name reason res) st := by
  refine Succeeds.bind ?_ fun o _ _ => ?_
  · refine (succeeds_get st).bind fun _ _ _ => ?_
    dsimp only
    split <;> exact (succeeds_set _ _).bind fun _ _ _ => succeeds_pure _ _
  · cases o with
    | none => exact succeeds_pure _ _
    | some suppressed => exact succeeds_commitEvent _ _

/-! ## Headers of a copy -/

/-- Provenance over the origin's headers, before anything is trimmed. -/
def copyHeaders (originHdr : Option Headers) (prov : Headers) : Headers :=
  prov.rows.foldl (fun h p => h.set p.1 p.2) ((originHdr.map Headers.persisted).getD Table.empty)

theorem trimHeaders_isSome (keys : List Bytes) (trimmed : Bool) {cap : ℕ} {merged : Headers}
    (h : (keys.foldl Headers.erase merged).marshal.length ≤ cap) : (trimHeaders cap keys merged trimmed).isSome := by
  induction keys generalizing trimmed merged with
  | nil =>
    have h : merged.marshal.length ≤ cap := h
    unfold trimHeaders
    rw [if_pos h]
    rfl
  | cons k ks ih =>
    unfold trimHeaders
    split
    · rfl
    · simp only
      split
      · exact ih true h
      · rename_i hk
        exact ih trimmed (by rw [List.foldl_cons, erase_of_not_has (by simpa using hk)] at h; exact h)

/-- What stays of a copy's headers when everything that may go is gone fits the budget. -/
def HeadersFit (env : Env) (d : DeadCtx) (origin : MessageRow) : Prop :=
  (((copyHeaders origin.hdr (provenanceHeaders d origin.publishedAt env.nowMs env.opts.dlq.reasonHeaderBytes).1).erase
    lastReasonKey).erase publishedAtKey).marshal.length ≤ 2 * env.opts.limits.maxHeaderBytes

/-! ## The sink -/

/-- The identifiers the process will mint are not in use. -/
def IdsFresh (env : Env) (st : Store) : Prop := ∀ m ∈ st.messages, ∀ i, st.minted ≤ i → m.id ≠ env.newID i

/-- Messages are only added, above the counters of their streams. -/
def Grown (st st' : Store) : Prop := ∀ s q m, st'.messages.find? (s, q) = some m →
  st.messages.find? (s, q) = some m ∨ Appended st.streamSeq st'.streamSeq s q

theorem ensureDLQStream_grows {origin : Bytes} {st : Store} (h : ensureDLQStream env dlq origin st = .ok (u, st')) :
    st'.messages = st.messages ∧ st'.minted = st.minted ∧
      ∀ s, st'.streamSeq.find? s = if s = dlq then some ⟨dlq, st.nextOf dlq⟩ else st.streamSeq.find? s := by
  have hseq : ∀ s, (st.streamSeq.insertIgnore ⟨dlq, 1⟩).find? s =
      if s = dlq then some ⟨dlq, st.nextOf dlq⟩ else st.streamSeq.find? s := by
    intro s
    rw [find?_insertIgnore]
    refine ite_congr rfl (fun _ => congrArg some ?_) fun _ => rfl
    unfold Store.nextOf
    cases hr : st.streamSeq.find? dlq with
    | none => rfl
    | some r =>
      have hk : r.stream = dlq := find?_key hr
      cases r
      cases hk
      rfl
  obtain rfl := ensureDLQStream_run h
  exact ⟨rfl, rfl, hseq⟩

theorem succeeds_ensureDLQStream (env : Env) (dlq origin : Bytes) (st : Store) :
    Succeeds (ensureDLQStream env dlq origin) st := by
  refine (succeeds_get st).bind fun _ _ _ => (succeeds_set _ _).bind fun _ _ _ => ?_
  split
  · exact succeeds_pure _ _
  · exact succeeds_modify _ _

theorem succeeds_insertMessage {st : Store} (hkey : m.dedupKey = none) (hid : ∀ r ∈ st.messages, r.id ≠ m.id)
    (hfree : st.messages.find? m.key = none) : Succeeds (insertMessage m) st := by
  refine (succeeds_get st).bind fun _ _ h => ?_
  obtain ⟨rfl, rfl⟩ := run_get.mp h
  rw [if_neg (by simp [hkey]), if_neg (by simpa [mem_iff] using hid)]
  cases ht : st.messages.insert m with
  | none =>
    obtain ⟨r, hr⟩ := insert_eq_none.mp ht
    rw [hfree] at hr
    cases hr
  | some t => exact succeeds_set _ _

theorem succeeds_copyDead {st : Store} (hhdr : HeadersFit env d origin) (hids : IdsFresh env st)
    (hfree : st.messages.find? (dlq, st.nextOf dlq) = none) : Succeeds (copyDead env d policy dlq origin) st := by
  refine (succeeds_ensureDLQStream env dlq d.stream st).bind fun _ st₁ h₁ => ?_
  obtain ⟨hmsgs, hminted, hseq⟩ := ensureDLQStream_grows h₁
  have hrow : st₁.streamSeq.find? dlq = some ⟨dlq, st.nextOf dlq⟩ := by rw [hseq, if_pos rfl]
  -- the counter is there, so a number is taken
  have htake : takeSeq dlq st₁ = .ok (some (st.nextOf dlq), { st₁ with
      streamSeq := st₁.streamSeq.update (fun r => r.stream == dlq) (fun r => { r with next := r.next + 1 })
        fun _ _ => rfl }) := by
    unfold takeSeq
    refine run_bind.mpr ⟨st₁, st₁, rfl, ?_⟩
    rw [hrow]
    rfl
  refine Succeeds.bind ⟨_, _, htake⟩ fun o st₂ h₂ => ?_
  obtain ⟨rfl, rfl⟩ := Prod.mk.inj (Except.ok.inj (htake.symm.trans h₂))
  refine (succeeds_require rfl _).bind fun seq st₃ h₃ => ?_
  obtain ⟨hs, rfl⟩ := require_run.mp h₃
  cases hs
  obtain ⟨hdr, hmerge⟩ := Option.isSome_iff_exists.mp
    (trimHeaders_isSome [lastReasonKey, publishedAtKey] false hhdr)
  refine (succeeds_require hmerge _).bind fun p st₄ h₄ => ?_
  obtain ⟨-, rfl⟩ := require_run.mp h₄
  refine (succeeds_get _).bind fun _ _ h₅ => ?_
  obtain ⟨rfl, rfl⟩ := run_get.mp h₅
  refine Succeeds.bind ⟨_, _, mint_run.mpr ⟨rfl, rfl⟩⟩ fun _ _ h₆ => ?_
  obtain ⟨rfl, rfl⟩ := mint_run.mp h₆
  refine (succeeds_insertMessage rfl (fun r hr => ?_) ?_).bind fun _ _ _ =>
    (succeeds_modify _ _).bind fun _ _ _ => succeeds_commitEvent _ _
  · have hr : r ∈ st₁.messages := hr
    rw [hmsgs] at hr
    exact hids r hr _ hminted.ge
  · show st₁.messages.find? (dlq, st.nextOf dlq) = none
    rw [hmsgs]
    exact hfree

theorem copyDead_grown {st : Store} (h : copyDead env d policy dlq origin st = .ok (u, st')) (hids : IdsFresh env st)
    (hinj : Function.Injective env.newID) : IdsFresh env st' ∧ Grown st st' := by
  simp only [copyDead, run_bind, run_get, mint_run, require_run] at h
  obtain ⟨_, st₁, h₁, o, st₂, h₂, seq, _, ⟨rfl, rfl⟩, hdr, _, ⟨-, rfl⟩, _, _, ⟨rfl, rfl⟩, _, _, ⟨rfl, rfl⟩,
    _, st₃, h₃, _, st₄, h₄, h₅⟩ := h
  obtain ⟨hmsgs, hminted, hseq⟩ := ensureDLQStream_grows h₁
  rcases takeSeq_run h₂ with ⟨-, ho, -⟩ | ⟨row, hrow, ho, rfl⟩
  · cases ho
  cases ho
  obtain rfl : row = ⟨dlq, st.nextOf dlq⟩ := by
    rw [hseq, if_pos rfl] at hrow
    exact (Option.some.inj hrow).symm
  obtain ⟨t, ht, rfl⟩ := insertMessage_run h₃
  obtain rfl := run_modify.mp h₄
  obtain rfl := commitEvent_run.mp h₅
  refine ⟨fun m hm i hi => ?_, fun s q m hm => ?_⟩
  · have hi : st₁.minted + 1 ≤ i := hi
    rcases (mem_insert ht).mp hm with hm | rfl
    · have hm : m ∈ st₁.messages := hm
      exact hids m (hmsgs ▸ hm) i (by omega)
    · intro he
      have he : st₁.minted = i := hinj he
      omega
  · have hm : t.find? (s, q) = some m := hm
    rw [find?_insert ht] at hm
    split at hm
    · rename_i hk
      obtain ⟨rfl, rfl⟩ := Prod.mk.inj hk
      right
      refine ⟨⟨_, (find?_takeSeq hrow _).trans (if_pos rfl), Int.lt_add_one_iff.mpr le_rfl⟩,
        fun r hr => ?_, fun hn => ?_⟩
      · show r.next ≤ st.nextOf s
        simp [Store.nextOf, hr]
      · show 1 ≤ st.nextOf s
        simp [Store.nextOf, hn]
    · left
      rw [← hmsgs]
      exact hm

/-- The sink succeeds when a copy is within the budget, fits its headers and finds its number free. -/
theorem succeeds_deadLetter {budget : DeadBudget} {st : Store} (hids : IdsFresh env st)
    (hcopy : ∀ origin, st.deadPolicyOf d.stream d.consumer = .dlq → st.messages.find? (d.stream, d.seq) = some origin →
      budget.canCopy origin.size = true ∧ HeadersFit env d origin ∧
        st.messages.find? (dlqName d.stream, st.nextOf (dlqName d.stream)) = none) :
    ∃ b st', deadLetter env budget d st = .ok (some b, st') := by
  unfold deadLetter
  by_cases hp : st.deadPolicyOf d.stream d.consumer = .dlq
  · cases horig : st.messages.find? (d.stream, d.seq) with
    | none =>
      obtain ⟨u, st', hc⟩ := succeeds_commitEvent (deadEvent env d .dlq .originMissing) st
      refine ⟨budget, st', run_bind.mpr ⟨st, st, rfl, ?_⟩⟩
      simp only [planDead, hp, ne_eq, not_true_eq_false, if_false, Bool.not_true, Bool.false_eq_true, horig]
      exact run_bind.mpr ⟨u, st', hc, rfl⟩
    | some origin =>
      obtain ⟨hcan, hhdr, hfree⟩ := hcopy origin hp horig
      obtain ⟨u, st', hc⟩ := succeeds_copyDead hhdr hids hfree
      refine ⟨budget.take origin.size, st', run_bind.mpr ⟨st, st, rfl, ?_⟩⟩
      simp only [planDead, hp, ne_eq, not_true_eq_false, if_false, Bool.not_true, Bool.false_eq_true, horig, hcan]
      exact run_bind.mpr ⟨u, st', hc, rfl⟩
  · obtain ⟨u, st', hc⟩ := succeeds_commitEvent (deadEvent env d (st.deadPolicyOf d.stream d.consumer) .dropped) st
    refine ⟨budget, st', run_bind.mpr ⟨st, st, rfl, ?_⟩⟩
    simp only [planDead, hp, ne_eq, not_false_eq_true, if_true, Bool.not_false]
    exact run_bind.mpr ⟨u, st', hc, rfl⟩

/-- What a copy does to the identifiers, the messages and the budget. -/
theorem deadLetter_grown {budget b : DeadBudget} {st : Store} (h : deadLetter env budget d st = .ok (some b, st'))
    (hids : IdsFresh env st) (hinj : Function.Injective env.newID) :
    IdsFresh env st' ∧ Grown st st' ∧ (b = budget ∨ ∃ origin, st.deadPolicyOf d.stream d.consumer = .dlq ∧
      st.messages.find? (d.stream, d.seq) = some origin ∧ b = budget.take origin.size) := by
  simp only [deadLetter, run_get_bind] at h
  have hsame : IdsFresh env st ∧ Grown st st := ⟨hids, fun _ _ _ hm => .inl hm⟩
  rw [run_ite] at h
  split at h
  · simp only [run_bind, commitEvent_run, run_pure] at h
    obtain ⟨_, _, rfl, hb, rfl⟩ := h
    exact ⟨hsame.1, hsame.2, .inl (Option.some.inj hb).symm⟩
  rename_i hcopy
  obtain ⟨hp, hdlq⟩ := planDead_copy (by simpa using hcopy)
  cases horig : st.messages.find? (d.stream, d.seq) with
  | none =>
    simp only [horig, run_bind, commitEvent_run, run_pure] at h
    obtain ⟨_, _, rfl, hb, rfl⟩ := h
    exact ⟨hsame.1, hsame.2, .inl (Option.some.inj hb).symm⟩
  | some origin =>
    simp only [horig, run_ite] at h
    split at h
    · obtain ⟨hb, -⟩ := run_pure.mp h
      cases hb
    · simp only [run_bind, run_pure] at h
      obtain ⟨_, _, h, hb, rfl⟩ := h
      obtain ⟨hids', hgrown⟩ := copyDead_grown h hids hinj
      exact ⟨hids', hgrown, .inr ⟨origin, hp, rfl, (Option.some.inj hb).symm⟩⟩

/-! ## Copies -/

/-- The item gives up a delivery whose message is copied to the dead-letter stream. -/
structure Store.Copies (st : Store) (it : SettleItem) (c : ConsumerRow) (d : DeliveryRow) (m : MessageRow) : Prop where
  consumer : st.consumers.find? (it.token.stream, it.token.consumer) = some c
  row : st.deliveries.find? it.token.row = some d
  generation : c.generation = it.token.generation
  attempt : d.attempts = it.token.attempt
  policy : c.deadPolicy = .dlq
  givesUp : it.verb = .term ∨ it.verb = .nak ∧ d.state = .inflight ∧ 0 < c.maxDeliver ∧ c.maxDeliver ≤ d.attempts
  origin : st.messages.find? (it.token.stream, it.token.seq) = some m

/-- The message an item would copy. -/
def Store.copied (st : Store) (it : SettleItem) : Option MessageRow := do
  let c ← st.consumers.find? (it.token.stream, it.token.consumer)
  let d ← st.deliveries.find? it.token.row
  if c.generation = it.token.generation ∧ d.attempts = it.token.attempt ∧ c.deadPolicy = .dlq ∧
      (it.verb = .term ∨ it.verb = .nak ∧ d.state = .inflight ∧ 0 < c.maxDeliver ∧ c.maxDeliver ≤ d.attempts) then
    st.messages.find? (it.token.stream, it.token.seq)
  else none

theorem Store.Copies.copied {st : Store} {d : DeliveryRow} (h : st.Copies it c d m) : st.copied it = some m := by
  unfold Store.copied
  rw [h.consumer, h.row]
  exact (if_pos ⟨h.generation, h.attempt, h.policy, h.givesUp⟩).trans h.origin

/-- What the sink is told about an item. -/
def settleDeadCtx (env : Env) (it : SettleItem) (cons : SettleConsumer) (row : SettleRow) (cause : DeadCause) :
    DeadCtx where
  stream := it.token.stream
  consumer := it.token.consumer
  subject := row.subject
  seq := it.token.seq
  msgId := row.msgId
  traceId := row.traceId
  attempts := it.token.attempt
  generation := it.token.generation
  maxDeliver := cons.cfg.maxDeliver
  cause := cause
  trigger := if cause = .terminated then .term else .nak
  lastReason := truncateUTF8 (trimSpace it.reason) env.opts.maxReasonBytes

/-- A plan that gives a delivery up runs the sink on it. -/
theorem applyOne_dead {cons : SettleConsumer} {row : SettleRow} {plan : SettlePlan}
    (hplan : planSettle (settleRequest env n it cons (some row)) env.now = .ok plan)
    (hgrant : plan.Grants (settleRequest env n it cons (some row)) row.view) (hd : plan.action = .dead) :
    ∃ res, ∀ budget, applyOne env n budget it (some cons) (some row) =
      (do
        commitEvent (settleEvent env.nowMs (if plan.cause = .terminated then .msgTerm else .msgNak) it.token row
          (.reason (truncateUTF8 (trimSpace it.reason) env.opts.maxReasonBytes)))
        let budget ← deadLetter env budget (settleDeadCtx env it cons row it.verb.cause)
        let budget ← Tx.require .deadBudget budget
        fencedDelete it.token
        return (res, budget) : Tx (ItemResult × DeadBudget)) := by
  have hcause := (hgrant.dead hd).1
  unfold applyOne
  simp only [hplan, applyPlan, hgrant.status, applyAction, hd, applyDead]
  rw [show plan.cause = it.verb.cause from hcause]
  exact ⟨_, fun _ => rfl⟩

/-- The origin found while a batch runs is the one the batch found. -/
theorem copies_of_dying {d : DeliveryRow} {st₀ st : Store} (hs : st₀.Sound) (hb : Background st₀ st) (hg : Grown st₀ st)
    (hc : st₀.consumers.find? (it.token.stream, it.token.consumer) = some c)
    (hd : st₀.deliveries.find? it.token.row = some d) (hgen : it.token.generation = c.generation)
    (hatt : it.token.attempt = d.attempts)
    (hup : (settleRequest env n it (.ofRow c) (some (.ofRow st₀ d))).GivesUp (SettleRow.ofRow st₀ d).view)
    (hp : st.deadPolicyOf it.token.stream it.token.consumer = .dlq)
    (hm : st.messages.find? (it.token.stream, it.token.seq) = some m) : st₀.Copies it c d m := by
  obtain ⟨-, hmax⟩ := hs.config _ c hc
  have hcast : toInt32 c.maxDeliver = c.maxDeliver := by
    have hcap : maxDeliverCap = 1000 := rfl
    unfold toInt32
    rw [Int.bmod_eq_of_le] <;> omega
  refine ⟨hc, hd, hgen.symm, hatt.symm, ?_, ?_, ?_⟩
  · rw [Store.deadPolicyOf, hb.consumers, hc] at hp
    exact hp
  · have hup' : it.verb = .term ∨ it.verb = .nak ∧ d.state = .inflight ∧ 0 < toInt32 c.maxDeliver ∧
        toInt32 c.maxDeliver ≤ d.attempts := hup
    rwa [hcast] at hup'
  · rcases hg _ _ _ hm with hm | ha
    · exact hm
    · -- a row's number is below the head, so nothing is appended there
      exfalso
      obtain ⟨head, hhead, hnext, -⟩ := hs.bounded (k := (it.token.stream, it.token.consumer)) (by simp [hc])
      have hlt := ((hs.ledger _ c hc).range it.token.seq d.slot
        (slot_eq_some.mpr ⟨d, by rw [(pair_of_find? hc).1, (pair_of_find? hc).2]; exact hd, rfl⟩)).2
      have hle := ha.above head hhead
      have hh : (st₀.ledger c).head = head.next := by
        show st₀.headOf c.stream = _
        rw [(pair_of_find? hc).1]
        exact hnext
      omega

/-! ## One item -/

/-- An item answered with a copy paid for it; every other item leaves messages and budget alone. -/
theorem applyOne_grown {budget b : DeadBudget} {cons : Option SettleConsumer} {row : Option SettleRow} {st : Store}
    (hids : IdsFresh env st) (hinj : Function.Injective env.newID)
    (h : applyOne env n budget it cons row st = .ok ((r, b), st')) :
    IdsFresh env st' ∧ Grown st st' ∧ (b = budget ∨ ∃ c d m, cons = some c ∧ row = some d ∧
      it.token.generation = c.generation ∧ it.token.attempt = d.view.attempts ∧
      (settleRequest env n it c row).GivesUp d.view ∧ st.deadPolicyOf it.token.stream it.token.consumer = .dlq ∧
      st.messages.find? (it.token.stream, it.token.seq) = some m ∧ b = budget.take m.size) := by
  have hsame : Grown st st := fun _ _ _ hm => .inl hm
  cases applyOne_answered h with
  | rejected _ _ h =>
    rcases h with rfl | ⟨_, _, _, _, -, h⟩
    · exact ⟨hids, hsame, .inl rfl⟩
    · obtain ⟨_, _, _, rfl⟩ := rejectionEvent_run h
      exact ⟨hids, hsame, .inl rfl⟩
  | @granted c d plan _ _ _ hc hd _ hgen hatt hgrant _ hacted =>
    clear h
    cases hacted with
    | noop => exact ⟨hids, hsame, .inl rfl⟩
    | ack _ _ h =>
      obtain ⟨-, rfl⟩ := fencedDelete_run h
      exact ⟨hids, hsame, .inl rfl⟩
    | extend _ _ h =>
      obtain ⟨-, rfl⟩ := fencedUpdate_run h
      exact ⟨hids, hsame, .inl rfl⟩
    | release _ _ h hend =>
      obtain ⟨-, rfl⟩ := fencedUpdate_run h
      rcases hend with rfl | ⟨-, rfl⟩ <;> exact ⟨hids, hsame, .inl rfl⟩
    | dead _ _ ha _ hsink h =>
      obtain ⟨-, rfl⟩ := fencedDelete_run h
      obtain ⟨hids', hgrown, hb⟩ := deadLetter_grown hsink hids hinj
      refine ⟨hids', hgrown, hb.imp_right fun ⟨m, hp, hm, hb⟩ => ?_⟩
      exact ⟨c, d, m, hc, hd, hgen, hatt, (hgrant.dead ha).2, hp, hm, hb⟩

/-! ## The batch -/

/-- The payload bytes of copies. -/
def copyBytes (ms : List MessageRow) : ℕ := (ms.map fun m => m.size.toNat).sum

@[simp] theorem copyBytes_cons (m : MessageRow) (ms : List MessageRow) :
    copyBytes (m :: ms) = m.size.toNat + copyBytes ms := by simp [copyBytes]

/-- The copies are within the budget, by number and by bytes. -/
structure DeadBudget.Affords (b : DeadBudget) (ms : List MessageRow) : Prop where
  copies : (ms.length : ℤ) ≤ b.copies
  bytes : (copyBytes ms : ℤ) ≤ b.bytes

section Affords

variable {b : DeadBudget} {ms : List MessageRow}

theorem DeadBudget.Affords.canCopy (h : b.Affords (m :: ms)) : b.canCopy m.size = true := by
  obtain ⟨hc, hb⟩ := h
  simp only [List.length_cons, copyBytes_cons] at hc hb
  have hle := Int.self_le_toNat m.size
  simp only [DeadBudget.canCopy, decide_eq_true_eq]
  omega

theorem DeadBudget.Affords.tail (h : b.Affords (m :: ms)) : b.Affords ms := by
  obtain ⟨hc, hb⟩ := h
  simp only [List.length_cons, copyBytes_cons] at hc hb
  exact ⟨by omega, by omega⟩

theorem DeadBudget.Affords.take (h : b.Affords (m :: ms)) : (b.take m.size).Affords ms := by
  obtain ⟨hc, hb⟩ := h
  simp only [List.length_cons, copyBytes_cons] at hc hb
  have hle := Int.self_le_toNat m.size
  exact ⟨by simp only [DeadBudget.take]; omega, by simp only [DeadBudget.take]; omega⟩

/-- The budget after an item that paid for the copy it asks for, or for none. -/
theorem DeadBudget.Affords.next {α : Type} {f : α → Option MessageRow} {a : α} {as : List α} {b' : DeadBudget}
    (h : b.Affords ((a :: as).filterMap f)) (hpaid : b' = b ∨ ∃ m, f a = some m ∧ b' = b.take m.size) :
    b'.Affords (as.filterMap f) := by
  cases hm : f a with
  | none =>
    rw [List.filterMap_cons_none hm] at h
    rcases hpaid with rfl | ⟨m, hm', -⟩
    · exact h
    · rw [hm] at hm'
      cases hm'
  | some m =>
    rw [List.filterMap_cons_some hm] at h
    rcases hpaid with rfl | ⟨m', hm', rfl⟩
    · exact h.tail
    · obtain rfl : m = m' := Option.some.inj (hm.symm.trans hm')
      exact h.take

end Affords

/-- Where a batch stands: what it has done since `st₀`, and what is left to do with the budget that is left. -/
structure Going (env : Env) (st₀ st : Store) (rest : List SettleItem) (budget : DeadBudget) : Prop where
  moves : Moves st₀ st
  grown : Grown st₀ st
  ids : IdsFresh env st
  rows : ∀ it ∈ rest, ∀ d, st₀.deliveries.find? it.token.row = some d → it.token.fences d = true →
    st.deliveries.find? it.token.row = some d
  copies : ((rest.filterMap st₀.copied).length : ℤ) ≤ budget.copies
  bytes : (copyBytes (rest.filterMap st₀.copied) : ℤ) ≤ budget.bytes

theorem Grown.trans {st₃ : Store} (h₁ : Grown st₁ st₂) (h₂ : Grown st₂ st₃) (hb₁ : Background st₁ st₂)
    (hb₂ : Background st₂ st₃) : Grown st₁ st₃ := by
  intro s q m hm
  rcases h₂ s q m hm with hm | ha
  · exact (h₁ s q m hm).imp_right fun ha => ha.later hb₂
  · exact .inr (.earlier hb₁ ha)

/-- The next number of a stream that is not being deleted is free. -/
theorem next_free {st₀ st : Store} {s : Bytes} (hs : st₀.Sound) (hb : Background st₀ st)
    (hu : st₀.metaTable.find? (.reap s) = none) : st.messages.find? (s, st.nextOf s) = none := by
  refine Option.eq_none_iff_forall_ne_some.mpr fun m hm => ?_
  have hlt : ∃ r, st.streamSeq.find? s = some r ∧ st.nextOf s < r.next := by
    rcases hb.stored s _ m hm with ⟨m₀, hm₀, -⟩ | ha
    · obtain ⟨r, hr, -, hlt⟩ := hs.stored s (st.nextOf s) hu (by simp [hm₀])
      obtain ⟨r', hr', hle⟩ := hb.seq s r hr
      exact ⟨r', hr', hlt.trans_le hle⟩
    · exact ha.below
  obtain ⟨r, hr, hlt⟩ := hlt
  rw [Store.nextOf, hr] at hlt
  exact lt_irrefl _ hlt

section Step

variable {budget : DeadBudget} {st₀ st : Store}

theorem Going.affords (g : Going env st₀ st rest budget) : budget.Affords (rest.filterMap st₀.copied) :=
  ⟨g.copies, g.bytes⟩

/-- A copy still to come is within the budget. -/
theorem Going.canCopy (g : Going env st₀ st (it :: rest) budget) (hm : st₀.copied it = some m) :
    budget.canCopy m.size = true := by
  have h := g.affords
  rw [List.filterMap_cons_some hm] at h
  exact h.canCopy

variable (hs : st₀.Sound)
  (hfen : ∀ k d c, st₀.deliveries.find? k = some d → st₀.consumers.find? (k.1, k.2.1) = some c →
    d.generation = c.generation)

include hs hfen

/-- **Progress.** An item of a batch that is under way does not fail. -/
theorem Going.succeeds (g : Going env st₀ st (it :: rest) budget)
    (hhdr : ∀ c d m, st₀.Copies it c d m →
      HeadersFit env (settleDeadCtx env it (.ofRow c) (.ofRow st₀ d) it.verb.cause) m)
    (htgt : ∀ m, st₀.copied it = some m → st₀.metaTable.find? (.reap (dlqName it.token.stream)) = none) :
    Succeeds (settleStep env n budget (.load st₀ it)) st := by
  have hreject : ∀ {name reason res} {p : ItemResult × DeadBudget},
      Succeeds (do rejectionEvent env it.token name reason res; return p) st := fun {_ _ _ _} =>
    (succeeds_rejectionEvent _ _ _ _ _ _).bind fun _ _ _ => succeeds_pure _ _
  show Succeeds (applyOne env n budget it _ _) st
  cases hc : st₀.consumers.find? (it.token.stream, it.token.consumer) with
  | none => exact succeeds_pure _ _
  | some c =>
    cases hplan : planSettle (settleRequest env n it (.ofRow c)
        ((st₀.deliveries.find? it.token.row).map (.ofRow st₀))) env.now with
    | error e =>
      simp only [applyOne, Option.map_some, hplan]
      exact succeeds_pure _ _
    | ok plan =>
      rcases planSettle_cases hplan with ⟨hstatus, -⟩ | ⟨view, hview, hgen, hatt, hgrant⟩
      · simp only [applyOne, Option.map_some, hplan]
        unfold applyPlan
        cases hst : plan.status with
        | ok => exact absurd hst hstatus
        | unknown => exact succeeds_pure _ _
        | stale => exact hreject
        | staleAck => exact hreject
        | wrongGeneration => exact hreject
      · obtain ⟨_, hrow, rfl⟩ := Option.map_eq_some_iff.mp hview
        obtain ⟨d, hd, rfl⟩ := Option.map_eq_some_iff.mp hrow
        have hgen : it.token.generation = c.generation := hgen
        have hatt : it.token.attempt = d.attempts := hatt
        have hf : it.token.fences d = true := Token.fences_iff.mpr
          ⟨find?_key hd, hatt.symm, (hfen _ d c hd hc).trans hgen.symm⟩
        have hcur := g.rows it List.mem_cons_self d hd hf
        rw [hd] at hplan hgrant ⊢
        simp only [Option.map_some] at hplan hgrant ⊢
        cases hact : plan.action with
        | noop => exact absurd hact hgrant.action
        | ack =>
          simp only [applyOne, hplan, applyPlan, hgrant.status, applyAction, hact, applyAck]
          exact ((succeeds_fencedDelete hcur hf).bind fun _ _ _ => (succeeds_commitEvent _ _).bind fun _ _ _ =>
            succeeds_pure _ _).bind fun _ _ _ => succeeds_pure _ _
        | extend =>
          simp only [applyOne, hplan, applyPlan, hgrant.status, applyAction, hact, applyExtend]
          have hheld : d.state = .inflight := hgrant.extend hact
          exact ((succeeds_fencedUpdate hcur hf _ (by simp [hheld])).bind fun _ _ _ =>
            (succeeds_commitEvent _ _).bind fun _ _ _ => succeeds_pure _ _).bind fun _ _ _ => succeeds_pure _ _
        | release =>
          simp only [applyOne, hplan, applyPlan, hgrant.status, applyAction, hact, applyRelease]
          refine ((succeeds_fencedUpdate hcur hf _ rfl).bind fun _ _ _ => ?_).bind fun _ _ _ => succeeds_pure _ _
          split
          · exact (succeeds_commitEvent _ _).bind fun _ _ _ => succeeds_pure _ _
          · exact succeeds_pure _ _
        | dead =>
          obtain ⟨res, hrun⟩ := applyOne_dead hplan hgrant hact
          unfold Succeeds
          rw [hrun]
          refine (succeeds_commitEvent _ _).bind fun _ st₁ h₁ => ?_
          -- the event touches neither messages nor consumers, so the sink finds what the batch found
          have hst₁ := commitEvent_run.mp h₁
          have hb := g.moves.background
          have hids₁ : IdsFresh env st₁ := by rw [← hst₁]; exact g.ids
          obtain ⟨b, st₂, h₂⟩ := succeeds_deadLetter (d := settleDeadCtx env it (.ofRow c) (.ofRow st₀ d) it.verb.cause)
            hids₁ fun m hp hm => by
              rw [← hst₁] at hp hm ⊢
              have hcopy := copies_of_dying hs hb g.grown hc hd hgen hatt (hgrant.dead hact).2 hp hm
              have hfree := next_free hs hb (htgt m hcopy.copied)
              exact ⟨g.canCopy hcopy.copied, hhdr c d m hcopy, hfree⟩
          refine Succeeds.bind ⟨_, _, h₂⟩ fun o st₃ h₃ => ?_
          obtain ⟨rfl, rfl⟩ := Prod.mk.inj (Except.ok.inj (h₂.symm.trans h₃))
          refine (succeeds_require rfl _).bind fun _ _ h₄ => ?_
          obtain ⟨-, rfl⟩ := require_run.mp h₄
          have hrow : st₂.deliveries.find? it.token.row = some d := by
            rw [(deadLetter_frame h₂).1, ← hst₁]
            exact hcur
          exact (succeeds_fencedDelete hrow hf).bind fun _ _ _ => succeeds_pure _ _

end Step

/-- Two tokens that fence one row are the same. -/
theorem fences_inj {u : Token} {d : DeliveryRow} (ht : t.fences d = true) (hu : u.fences d = true) : t = u := by
  obtain ⟨hk, ha, hg⟩ := Token.fences_iff.mp ht
  obtain ⟨hk', ha', hg'⟩ := Token.fences_iff.mp hu
  simp only [Token.row] at hk hk'
  rw [hk, Prod.mk.injEq, Prod.mk.injEq] at hk'
  cases t
  cases u
  simp_all

theorem Going.next {budget b : DeadBudget} {st₀ st : Store} (hs : st₀.Sound) (hinj : Function.Injective env.newID)
    (hatt : 1 ≤ it.token.attempt) (hnew : ∀ it' ∈ rest, it'.token ≠ it.token) (g : Going env st₀ st (it :: rest) budget)
    (h : settleStep env n budget (.load st₀ it) st = .ok ((r, b), st')) : Going env st₀ st' rest b := by
  have hm : Moves st st' := by
    have hitems : settleItems env n budget [.load st₀ it] st = .ok ([r], st') :=
      settleItems_cons.mpr ⟨r, b, st', [], h, rfl, rfl⟩
    have hall : ∀ x ∈ [it], 1 ≤ x.token.attempt := by simpa using hatt
    exact (acts_settleItems hall g.moves (.cons (.inr rfl) .nil) hitems).moves
  obtain ⟨hids, hgrown, hspent⟩ := applyOne_grown g.ids hinj h
  -- either nothing was paid, or one copy was, and it was counted
  have hpaid : b = budget ∨ ∃ m, st₀.copied it = some m ∧ b = budget.take m.size := by
    refine hspent.imp_right fun ⟨cons, row, m, hc, hd, hgen, hatt, hup, hp, hm, hb⟩ => ⟨m, ?_, hb⟩
    obtain ⟨c, hc', rfl⟩ := Option.map_eq_some_iff.mp hc
    obtain ⟨d, hd', rfl⟩ := Option.map_eq_some_iff.mp hd
    rw [hd] at hup
    exact (copies_of_dying hs g.moves.background g.grown hc' hd' hgen hatt hup hp hm).copied
  have hbudget := g.affords.next hpaid
  refine ⟨g.moves.trans hm, g.grown.trans hgrown g.moves.background hm.background, hids, fun it' hit' d hd hf => ?_,
    hbudget.copies, hbudget.bytes⟩
  have hcur := g.rows it' (List.mem_cons_of_mem _ hit') d hd hf
  rw [← hcur]
  rcases settleStep_cases (.inr rfl) h with ⟨-, hsame, -⟩ | ⟨-, -, htouch⟩
  · rw [hsame]
  · refine Classical.byContradiction fun hne => ?_
    obtain ⟨d', hd', hf'⟩ := htouch.fenced _ hne
    obtain rfl : d = d' := Option.some.inj (hcur.symm.trans hd')
    exact hnew it' hit' (fences_inj hf hf')

/-! ## The conditions -/

/-- The items whose token text is met for the first time. -/
def firstUses : List Bytes → List SettleItem → List SettleItem
  | _, [] => []
  | seen, it :: its =>
    if it.token.string ∈ seen then firstUses seen its else it :: firstUses (it.token.string :: seen) its

theorem mem_firstUses (h : it ∈ firstUses seen items) : it ∈ items ∧ it.token.string ∉ seen := by
  induction items generalizing seen with
  | nil => cases h
  | cons x xs ih =>
    unfold firstUses at h
    split at h
    · exact ⟨List.mem_cons_of_mem _ (ih h).1, (ih h).2⟩
    · rename_i hx
      rcases List.mem_cons.mp h with rfl | h
      · exact ⟨List.mem_cons_self, hx⟩
      · exact ⟨List.mem_cons_of_mem _ (ih h).1, fun hm => (ih h).2 (List.mem_cons_of_mem _ hm)⟩

/-- What a batch must find so that none of its items can fail: numbers that fit the scans, a dead-letter budget for
every copy it asks for, headers that fit, dead-letter streams that are not being deleted, and unused identifiers. -/
structure SettleFits (env : Env) (st : Store) (items : List SettleItem) : Prop where
  generation : ∀ c ∈ st.consumers, c.generation ≤ maxInt32
  attempts : ∀ d ∈ st.deliveries, d.attempts ≤ maxInt32
  copies : (((firstUses [] items).filterMap st.copied).length : ℤ) ≤ env.opts.dlq.maxCopiesPerCommit
  bytes : (copyBytes ((firstUses [] items).filterMap st.copied) : ℤ) ≤ env.opts.dlq.maxBytesPerCommit
  headers : ∀ it ∈ items, ∀ c ∈ st.consumers.find? (it.token.stream, it.token.consumer),
    ∀ d ∈ st.deliveries.find? it.token.row, ∀ m ∈ st.copied it,
    HeadersFit env (settleDeadCtx env it (.ofRow c) (.ofRow st d) it.verb.cause) m
  target : ∀ it ∈ items, ∀ m ∈ st.copied it, st.metaTable.find? (.reap (dlqName it.token.stream)) = none
  ids : IdsFresh env st

section Batch

variable {st₀ : Store} (hs : st₀.Sound)
  (hfen : ∀ k d c, st₀.deliveries.find? k = some d → st₀.consumers.find? (k.1, k.2.1) = some c →
  d.generation = c.generation)

include hs hfen

theorem succeeds_prepare (hg : ∀ c ∈ st₀.consumers, c.generation ≤ maxInt32)
    (ha : ∀ d ∈ st₀.deliveries, d.attempts ≤ maxInt32) (items : List SettleItem) (seen : List Bytes) (st : Store) :
    Succeeds (prepare st₀ seen items) st := by
  have hgen : ∀ {k c}, st₀.consumers.find? k = some c → ∀ st, Succeeds (scanInt32 c.generation) st := by
    intro k c hc st
    have h1 := (hs.config k c hc).1
    have h2 := hg c (mem_of_find? hc)
    exact ⟨_, st, scanInt32_run.mpr ⟨⟨by omega, h2⟩, rfl, rfl⟩⟩
  induction items generalizing seen st with
  | nil => exact succeeds_pure _ _
  | cons it items ih =>
    unfold prepare
    split
    · exact (ih seen st).bind fun _ _ _ => succeeds_pure _ _
    · refine Succeeds.bind ?_ fun _ _ _ => Succeeds.bind ?_ fun _ _ _ => (ih _ _).bind fun _ _ _ => succeeds_pure _ _
      · unfold loadSettleConsumer
        cases hc : st₀.consumers.find? (it.token.stream, it.token.consumer) with
        | none => exact succeeds_pure _ _
        | some c => exact (hgen hc _).bind fun _ _ _ => succeeds_pure _ _
      · unfold loadSettleRow
        cases hd : st₀.deliveries.find? (it.token.stream, it.token.consumer, it.token.seq) with
        | none => exact succeeds_pure _ _
        | some d =>
          obtain ⟨c, hc⟩ := Option.ne_none_iff_exists'.mp
            (hs.owner it.token.row (ne_of_eq_of_ne hd (Option.some_ne_none d)))
          have hrow := hfen _ d c hd hc
          have h0 := (hs.ledger _ c hc).attempts it.token.seq d.slot
            (slot_eq_some.mpr ⟨d, by rw [(pair_of_find? hc).1, (pair_of_find? hc).2]; exact hd, rfl⟩)
          have h0 : 0 ≤ d.attempts := h0
          have h1 := ha d (mem_of_find? hd)
          refine Succeeds.bind ⟨_, _, scanInt32_run.mpr ⟨⟨by omega, h1⟩, rfl, rfl⟩⟩ fun _ _ _ => ?_
          rw [hrow]
          exact (hgen hc _).bind fun _ _ _ => succeeds_pure _ _

/-- The apply phase of a batch that is under way runs to its end. -/
theorem succeeds_settleItems (hinj : Function.Injective env.newID) {ps : List Prepared} {budget : DeadBudget}
    {st : Store} (hatt : ∀ it ∈ items, 1 ≤ it.token.attempt) (hhdr : ∀ it ∈ items, ∀ c d m, st₀.Copies it c d m →
      HeadersFit env (settleDeadCtx env it (.ofRow c) (.ofRow st₀ d) it.verb.cause) m)
    (htgt : ∀ it ∈ items, ∀ m, st₀.copied it = some m → st₀.metaTable.find? (.reap (dlqName it.token.stream)) = none)
    (hprep : prepare st₀ seen items st₁ = .ok (ps, st₂)) (g : Going env st₀ st (firstUses seen items) budget) :
    Succeeds (settleItems env n budget ps) st := by
  induction items generalizing seen ps n budget st st₁ with
  | nil =>
    obtain ⟨rfl, -⟩ := run_pure.mp hprep
    exact succeeds_pure _ _
  | cons it items ih =>
    have hmem : it ∈ it :: items := List.mem_cons_self
    have hatt' : ∀ x ∈ items, 1 ≤ x.token.attempt := fun x hx => hatt x (List.mem_cons_of_mem _ hx)
    have hhdr' := fun x (hx : x ∈ items) => hhdr x (List.mem_cons_of_mem _ hx)
    have htgt' := fun x (hx : x ∈ items) => htgt x (List.mem_cons_of_mem _ hx)
    unfold firstUses at g
    by_cases hseen : it.token.string ∈ seen
    · rw [if_pos hseen] at g
      simp only [prepare, if_pos hseen, run_bind, run_pure] at hprep
      obtain ⟨ps', _, hprep, rfl, rfl⟩ := hprep
      obtain ⟨rs, st', h⟩ := ih (n := n + 1) hatt' hhdr' htgt' hprep g
      exact ⟨_, st', settleItems_cons.mpr ⟨_, budget, st, rs, rfl, h, rfl⟩⟩
    · rw [if_neg hseen] at g
      simp only [prepare, if_neg hseen, run_bind, run_pure] at hprep
      obtain ⟨cons, _, h₁, row, _, h₂, ps', _, hprep, rfl, rfl⟩ := hprep
      obtain ⟨rfl, rfl⟩ := loadSettleConsumer_run h₁
      obtain ⟨rfl, rfl⟩ := loadSettleRow_run h₂
      obtain ⟨⟨r, b⟩, st', hstep⟩ := g.succeeds (n := n) hs hfen (hhdr it hmem) (htgt it hmem)
      have hnew : ∀ it' ∈ firstUses (it.token.string :: seen) items, it'.token ≠ it.token := fun it' hit' he =>
        (mem_firstUses hit').2 (by rw [he]; exact List.mem_cons_self)
      obtain ⟨rs, st'', h⟩ := ih (n := n + 1) hatt' hhdr' htgt' hprep (g.next hs hinj (hatt it hmem) hnew hstep)
      exact ⟨_, st'', settleItems_cons.mpr ⟨r, b, st', rs, hstep, h, rfl⟩⟩

theorem succeeds_settle (hinj : Function.Injective env.newID) (hatt : ∀ it ∈ items, 1 ≤ it.token.attempt)
    (hf : SettleFits env st₀ items) : Succeeds (settle env items) st₀ := by
  obtain ⟨ps, _, hprep⟩ := succeeds_prepare hs hfen hf.generation hf.attempts items [] st₀
  obtain ⟨-, rfl⟩ := prepare_run hprep
  have g : Going env st₀ st₀ (firstUses [] items) (newDeadBudget env.opts.dlq) :=
    ⟨.refl, fun _ _ _ hm => .inl hm, hf.ids, fun _ _ _ hd _ => hd, hf.copies, hf.bytes⟩
  obtain ⟨rs, st', h⟩ := succeeds_settleItems (n := 0) hs hfen hinj hatt
    (fun it hit c d m hc => hf.headers it hit c hc.consumer d hc.row m hc.copied) hf.target hprep g
  exact ⟨tally rs, st', settle_run.mpr ⟨ps, rs, hprep, h, rfl⟩⟩

end Batch

/-- **No settle fails.** After a run without partial purges, a batch that fits the state is answered item by item and
does not latch the writer. -/
theorem settle_total {h : List Visit} {b : Broker} (r : Runs h b) (hp : ∀ v ∈ h, PurgesWhole v) (env : Env)
    (hinj : Function.Injective env.newID) (items : List ClientItem)
    (hf : SettleFits env b.store (items.map Subtype.val)) :
    (∃ res st', settle env (items.map Subtype.val) { b.store with carriers := [] } = .ok (res, st') ∧
      res.results.length = items.length) ∧ (b.exec ⟨env, .settle items⟩).1.latched = b.latched := by
  have hs := r.sound.uncarried []
  have hfen : ∀ k d c, b.store.deliveries.find? k = some d → b.store.consumers.find? (k.1, k.2.1) = some c →
      d.generation = c.generation := fun k d c hd hc => fenced_row (r.fenced hp) hc hd
  have hatt : ∀ it ∈ items.map Subtype.val, 1 ≤ it.token.attempt := by
    intro it hit
    obtain ⟨x, -, rfl⟩ := List.mem_map.mp hit
    exact x.2.attempt.1
  have hf' : SettleFits env { b.store with carriers := [] } (items.map Subtype.val) :=
    ⟨hf.generation, hf.attempts, hf.copies, hf.bytes, hf.headers, hf.target, hf.ids⟩
  obtain ⟨res, st', hrun⟩ := succeeds_settle hs hfen hinj hatt hf'
  have hlen := (settle_accounts hrun).1
  rw [List.length_map] at hlen
  refine ⟨⟨res, st', hrun, hlen⟩, ?_⟩
  unfold Broker.exec
  cases hl : b.latched with
  | true => simp [Broker.admits, hl]
  | false =>
    have hcmd : command env (.settle items) { b.store with carriers := [] } =
        (do Tx.check (checkRequest env (.settle items)); applyRequest env (.settle items) : Tx Reply)
          { b.store with carriers := [] } := rfl
    simp only [Broker.admits, hl, Bool.not_false, Bool.not_true, Bool.false_eq_true, if_false]
    cases hchk : checkRequest env (.settle items) with
    | error e =>
      have hrefused : command env (.settle items) { b.store with carriers := [] } = .error (.refused e) := by
        rw [hcmd, hchk]
        rfl
      rw [hrefused]
      exact hl
    | ok _ =>
      have hok : command env (.settle items) { b.store with carriers := [] } = .ok (.settled res, st') := by
        rw [hcmd]
        exact run_bind.mpr ⟨(), _, check_run.mpr ⟨hchk, rfl⟩, run_map.mpr ⟨res, hrun, rfl⟩⟩
      rw [hok]

/-! ## A settle that fails -/

/-- The token of row 2 under the generation the partial purge left the consumer with. -/
def staleRowToken : Token := ⟨aStream, aConsumer, 2, 1, 2⟩

def staleRowAck : ClientItem := ⟨{ token := staleRowToken, verb := .ack },
  ⟨by show Subject.validateStreamName aStream = _; decide,
    by show Subject.validateConsumerName aConsumer = _; decide, by decide, by decide, by decide⟩⟩

/-- The unmarked error of a run. -/
def faultOf {α : Type} : Except Err α → Option Fault
  | .error (.fault f) => some f
  | _ => none

/-- After the partial purge the planner accepts the token and the fence does not: the batch fails and the writer is
latched. -/
theorem settle_after_partial_purge :
    Runs (play partialPurge) (playState partialPurge) ∧
    faultOf (settle (.atMs 12) [staleRowAck.val] (playState partialPurge).store) = some (.fence 0) ∧
    (playState (partialPurge ++ [(12, .settle [staleRowAck])])).latched = true :=
  ⟨runs_play _, by decide +kernel⟩

instance (env : Env) (d : DeadCtx) (m : MessageRow) : Decidable (HeadersFit env d m) :=
  inferInstanceAs (Decidable (_ ≤ _))

/-- A process that mints identifiers no message has yet. -/
def freshEnv : Env := { Env.atMs 20 with newID := fun n => chr 'x' :: itoa n }

/-- The give-up of the delivery the whole purge left. -/
def lastTerm : ClientItem := ⟨{ token := ⟨aStream, aConsumer, 3, 1, 2⟩, verb := .term },
  ⟨by show Subject.validateStreamName aStream = _; decide,
    by show Subject.validateConsumerName aConsumer = _; decide, by decide, by decide, by decide⟩⟩

/-- After a whole purge the next delivery can be given up, with a copy to the dead-letter stream. -/
theorem settle_total_lastTerm :
    ((playState wholePurge).store.copied lastTerm.val).isSome = true ∧
    ∃ res st', settle freshEnv [lastTerm.val] { (playState wholePurge).store with carriers := [] } = .ok (res, st') ∧
      res.results.length = 1 := by
  have hids : ∀ m ∈ (playState wholePurge).store.messages, m.id.head? ≠ some (chr 'x') := by decide +kernel
  have hinj : Function.Injective freshEnv.newID := fun i j hij => Int.ofNat.inj (itoa_injective (List.cons.inj hij).2)
  have hfits : SettleFits freshEnv (playState wholePurge).store [lastTerm.val] :=
    ⟨by decide +kernel, by decide +kernel, by decide +kernel, by decide +kernel, by decide +kernel, by decide +kernel,
      fun m hm i _ he => hids m hm (by rw [he]; rfl)⟩
  exact ⟨by decide +kernel, (settle_total (runs_play wholePurge) (by decide +kernel) freshEnv hinj [lastTerm] hfits).1⟩

end Messq

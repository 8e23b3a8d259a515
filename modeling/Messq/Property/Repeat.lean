import Messq.Api.Settle
import Messq.Property.Batch
import Messq.Property.Loss

/-! # An acknowledgement repeated over HTTP

A settled position stays gone and its consumer keeps its generation as long as the consumer is not sought, purged or
deleted (`gone_kept`), so the store answers a repeated acknowledgement with the status `stale`. The handler renders that
status with the word it has for the fence failures, and a request spelled with the single token turns it into the
conflict `stale_ack`; only the batch spellings answer 200 (`repeated_ack_answered`). -/

namespace Messq

open Lib

variable {h : List Visit} {out : SettleResponse} {b : Broker} {raw : Bytes} {env : Env}

/-! ## What may happen in between -/

/-- The visit committed a seek, a purge or a deletion that concerns the consumer `k`. -/
def Disturbs (v : Visit) (k : Bytes × Bytes) : Prop := v.act.req.disturbs k = true ∧ ∃ reply es, v.out = .ok reply es

/-- **Run.** A position that is gone stays gone under the same generation. -/
theorem gone_kept {b₀ : Broker} (r : History Broker.exec b₀ h b) (hs : b₀.store.Sound) {k : Bytes × Bytes} {l₀ : Ledger}
    (hl₀ : b₀.view k = some l₀) {q : ℤ} (hg : l₀.Gone q) (hq : ∀ v ∈ h, ¬ Disturbs v k) :
    b.store.Sound ∧ ∃ l, b.view k = some l ∧ l.epoch = l₀.epoch ∧ l.Gone q := by
  refine r.invariant (C := fun _ v => ¬ Disturbs v k)
    (I := fun _ b => b.store.Sound ∧ ∃ l, b.view k = some l ∧ l.epoch = l₀.epoch ∧ l.Gone q)
    (upheld_of_forall hq) ⟨hs, l₀, hl₀, rfl, hg⟩ ?_
  rintro h b s ⟨hs, l, hl, hep, hg⟩ hv
  refine ⟨exec_sound hs s, ?_⟩
  rcases exec_cases b s with ⟨reply, st, hcom⟩ | ⟨hst, -⟩
  · have hcalm : s.req.disturbs k = false := by
      rw [← Bool.not_eq_true]
      exact fun hd => hv ⟨hd, reply, st.carriers, hcom.out⟩
    obtain ⟨hpurge, hseek, hdel⟩ := action_of_undisturbed (v := visit Broker.exec b s) hcalm
    cases hl' : (b.exec s).1.view k with
    | none =>
      rw [show (visit Broker.exec b s).act.req = s.req from rfl, view_vanished hs hl hl'] at hdel
      cases hdel
    | some l' =>
      have hstep := view_step hs hl hl'
      exact ⟨l', rfl, (hstep.epoch_eq hseek hpurge).trans hep, hstep.gone (view_sound hs hl) hseek hg⟩
  · exact ⟨l, by rw [Broker.view, hst]; exact hl, hep, hg⟩

/-! ## The store's answers -/

section Store

variable {it : SettleItem} {st st' : Store} {r : SettleResult}

theorem planSettle_ack {req : SettleRequest} {view : RowView} {now : ℤ} {plan : SettlePlan} (hverb : req.verb = .ack)
    (hgen : req.token.generation = req.generation) (hrow : req.row = some view)
    (hatt : req.token.attempt = view.attempts)
    (h : planSettle req now = .ok plan) : plan.action = .ack := by
  simp only [planSettle, hgen, hrow, hatt, hverb, ne_eq, not_true_eq_false, if_false, Except.ok.injEq] at h
  rw [← h]
  rfl

/-- An acknowledgement answered `ok` found the row of its token, and the row is gone afterwards. -/
theorem settle_ack_ok (hverb : it.verb = .ack) (h : settle env [it] st = .ok (r, st'))
    (hok : r.results.map ItemResult.status = [.ok]) :
    (∃ c, st.consumers.find? (it.token.stream, it.token.consumer) = some c ∧ c.generation = it.token.generation) ∧
      st.deliveries.find? it.token.row ≠ none ∧ st'.deliveries.find? it.token.row = none := by
  obtain ⟨-, res, b, hstep, rfl⟩ := settle_single.mp h
  have hok : res.status = .ok := by simpa [tally] using hok
  cases applyOne_answered hstep with
  | rejected hr => exact absurd hok hr
  | granted hcons hrow hplan hgen hatt _ _ hacted =>
    obtain ⟨c, hc, rfl⟩ := Option.map_eq_some_iff.mp hcons
    obtain ⟨d, hd, rfl⟩ := Option.map_eq_some_iff.mp hrow
    refine ⟨⟨c, hc, hgen.symm⟩, by simp [hd], ?_⟩
    -- the plan of an acknowledgement is to end the delivery
    have hack := planSettle_ack hverb hgen (by rw [hd]; rfl) hatt hplan
    clear h hstep
    cases hacted with
    | ack _ _ h =>
      obtain ⟨d', -, hk, -, -, -, hsets⟩ := fencedDelete_sets h
      exact hk ▸ hsets.same
    | noop ha | extend _ ha | release _ ha | dead _ _ ha => cases hack.symm.trans ha

/-- The store's answer to an item whose position is gone. -/
def SettleItem.staleResult (it : SettleItem) (c : ConsumerRow) : ItemResult :=
  { token := it.token, status := .stale, attempt := it.token.attempt,
    maxDeliver := (SettleConsumer.ofRow c).cfg.maxDeliver }

/-- An item of the current generation whose row is gone from below the cursor is answered `stale`. -/
theorem settle_stale {c : ConsumerRow} (env : Env)
    (hc : st.consumers.find? (it.token.stream, it.token.consumer) = some c)
    (hgen : c.generation = it.token.generation) (hv : it.token.Valid) (hrow : st.deliveries.find? it.token.row = none)
    (hseq : it.token.seq < c.cursorSeq) : ∃ st', settle env [it] st = .ok (tally [it.staleResult c], st') := by
  have hscan : st.Scans it := by
    constructor
    · intro c' hc'
      obtain rfl : c = c' := Option.some.inj (hc.symm.trans hc')
      have := hv.generation
      constructor <;> omega
    · intro d hd
      rw [hrow] at hd
      cases hd
  have hplan : planSettle (settleRequest env 0 it (.ofRow c) none) env.now = .ok { status := .stale } := by
    simp [planSettle, settleRequest, SettleConsumer.ofRow, hgen, hseq]
  obtain ⟨_, st', hev⟩ := succeeds_rejectionEvent env it.token .msgAckDup .none (it.staleResult c) st
  refine ⟨st', settle_single.mpr ⟨hscan, it.staleResult c, newDeadBudget env.opts.dlq, ?_, rfl⟩⟩
  simp only [settleStep, Prepared.load, applyOne, hc, hrow, Option.map_some, Option.map_none, hplan,
    applyPlan, run_bind,
    run_pure]
  exact ⟨_, st', hev, rfl, rfl⟩

end Store

/-! ## The handler's answers -/

/-- The texts of the tokens a request spells. -/
def SettleReq.texts (req : SettleReq) : List Bytes := req.spelled.map SettleItemReq.token

theorem parseClientToken_ok {t : Token} (h : parseToken raw = .ok t) :
    parseClientToken raw = .ok ⟨t, parseToken_valid h⟩ := by
  unfold parseClientToken
  split
  · rename_i t' ht'
    obtain rfl : t = t' := Except.ok.inj (h.symm.trans ht')
    rfl
  · rename_i e he
    cases h.symm.trans he

/-- A request of one well-formed token is submitted as one item. -/
theorem parseSettleReq_one {verb : Verb} {req : SettleReq} {t : Token} {p : List SettleSlot × List ClientItem × Bool}
    (hone : req.texts = [raw]) (ht : parseToken raw = .ok t) (h : parseSettleReq verb req = .ok p) :
    ∃ it : ClientItem, it.1.token = t ∧ it.1.verb = verb ∧ p = ([⟨raw, none⟩], [it], req.single) := by
  obtain ⟨x, hx, rfl⟩ := List.map_eq_singleton_iff.mp hone
  simp only [parseSettleReq, hx, parseSlots, parseClientToken_ok ht, bind_eq_ok, pure_eq_ok] at h
  obtain ⟨-, -, -, -, -, ⟨_, hnil, rfl⟩, rfl⟩ := h
  cases hnil
  exact ⟨⟨x.item verb t, parseToken_valid ht⟩, rfl, rfl, rfl⟩

theorem projectSingle_json {out' : SettleResponse} (h : projectSingle out' = .json out) : out = out' := by
  unfold projectSingle at h
  split at h
  · exact (Response.json.inj h).symm
  · split at h
    · exact (Response.json.inj h).symm
    · cases h
    · cases h

/-- The requests answered 200 are those the store carried out. -/
theorem settleAnswer_json {slots : List SettleSlot} {single : Bool} {o : Outcome}
    (h : settleAnswer slots single o = .json out) :
    ∃ res es, o = .ok (.settled res) es ∧ out = renderSettle slots res.results := by
  unfold settleAnswer at h
  split at h
  · rename_i res es
    refine ⟨res, es, rfl, ?_⟩
    split at h
    · exact projectSingle_json h
    · exact (Response.json.inj h).symm
  all_goals cases h

theorem ItemStatus.wire_ok {s : ItemStatus} : s.wire = .ok ↔ s = .ok := by cases s <;> decide

section Handler

variable {req : SettleReq} {t : Token}

/-- How a stale token is rendered. -/
def Token.staleItem (t : Token) : SettleItemResult where
  token := t.string
  result := .stale
  tokenAttempt := t.attempt

/-- **First request.** An acknowledgement answered with the result `ok` leaves its position gone, under the generation
of the token. -/
theorem gone_of_acked (r : Runs h b) (hm : ∀ v ∈ h, ReapsMarked v) (hone : req.texts = [raw])
    (ht : parseToken raw = .ok t) (h₁ : (handleSettle env .ack req b).2 = .json out)
    (hok : out.results.map SettleItemResult.result = [.ok]) :
    (handleSettle env .ack req b).1.store.Sound ∧ ∃ l, (handleSettle env .ack req b).1.view (t.stream,
      t.consumer) = some l ∧
      l.epoch = t.generation ∧ l.Gone t.seq := by
  unfold handleSettle at h₁ ⊢
  cases hp : parseSettleReq .ack req with
  | error e =>
    rw [hp] at h₁
    cases h₁
  | ok p =>
    obtain ⟨it, rfl, hverb, rfl⟩ := parseSettleReq_one hone ht hp
    simp only [hp, List.length_singleton] at h₁ ⊢
    by_cases hcap : 1 > env.opts.maxSettleBatch
    · rw [if_pos hcap] at h₁
      cases h₁
    · rw [if_neg hcap] at h₁ ⊢
      obtain ⟨res, es, hout, rfl⟩ := settleAnswer_json h₁
      rcases exec_cases b ⟨env, .settle [it]⟩ with ⟨reply, st, hcom⟩ | ⟨-, -, -, hno⟩
      · obtain ⟨r', hrun, hreply⟩ := run_map.mp hcom.run
        have hres : res = r' := by
          have := hcom.out.symm.trans hout
          rw [← hreply] at this
          cases this
          rfl
        subst hres
        obtain ⟨-, x, -, -, hx⟩ := settle_single.mp hrun
        have hstatus : res.results.map ItemResult.status = [.ok] := by
          rw [hx] at hok ⊢
          simpa [renderSettle, renderSlots, renderItem, tally, ItemStatus.wire_ok] using hok
        obtain ⟨⟨c, hc, hgen⟩, hpre, hpost⟩ := settle_ack_ok hverb hrun hstatus
        obtain ⟨c', hc', hkept, hgone⟩ := gone_of_settled r hm (s := ⟨env, .settle [it]⟩) rfl
          (k := (it.1.token.stream, it.1.token.consumer)) hpre (by rw [hcom.post]; exact hpost)
        obtain rfl : c = c' := Option.some.inj (hc.symm.trans hc')
        exact ⟨exec_sound r.sound _, _, view_of_find? hkept, hgen, hgone⟩
      · exact absurd hout (hno _ _)

/-- **Repeated request.** On a gone position the answer depends on the spelling alone. -/
theorem handleSettle_gone {it : ClientItem} {l : Ledger}
    (hp : parseSettleReq .ack req = .ok ([⟨raw, none⟩], [it], req.single))
    (hl : b.view (it.1.token.stream, it.1.token.consumer) = some l) (hep : l.epoch = it.1.token.generation)
    (hg : l.Gone it.1.token.seq) :
    (handleSettle env .ack req b).2 =
      if 1 > env.opts.maxSettleBatch then .error (.batchTooLarge 1 env.opts.maxSettleBatch)
      else if b.latched then .error .latched
      else if req.single then .error (.stale it.1.token.staleItem)
      else .json ⟨[it.1.token.staleItem], 0, 1, 0⟩ := by
  obtain ⟨c, hc, rfl⟩ := Option.map_eq_some_iff.mp hl
  obtain ⟨hstream, hname⟩ := pair_of_find? hc
  simp only [handleSettle, hp, List.length_singleton]
  split
  · rfl
  · rename_i hcap
    cases hlatch : b.latched with
    | true => simp [Broker.exec, Broker.admits, hlatch, settleAnswer]
    | false =>
      have hrow : b.store.deliveries.find? it.1.token.row = none := by
        have := slot_eq_none.mp hg.2
        rwa [hstream, hname] at this
      obtain ⟨st', hrun⟩ : ∃ st', settle env [it.1] { b.store with carriers := [] } =
          .ok (tally [it.1.staleResult c], st') :=
        settle_stale env hc hep it.2 hrow hg.1.1
      have hcmd : command env (.settle [it]) { b.store with carriers := [] } =
          .ok (.settled (tally [it.1.staleResult c]), st') := by
        simp only [command, checkRequest, List.length_singleton, if_neg hcap, run_bind, check_run]
        exact ⟨(), _, ⟨trivial, rfl⟩, run_map.mpr ⟨_, hrun, rfl⟩⟩
      simp [Broker.exec, Broker.admits, hlatch, hcmd, settleAnswer, renderSettle, renderSlots, renderItem, tally,
        projectSingle, SettleItem.staleResult, Token.staleItem, ItemStatus.wire]

end Handler

/-- **Main theorem.** A one-token acknowledgement was answered with the result `ok`, and its consumer has not been
sought, purged or deleted since. The same request is answered 200 again exactly in the batch spellings, from a writer
that is not latched; with the single spelling the answer is `stale_ack`, the code of a failed fence. -/
theorem repeated_ack_answered {h₁ h₂ : List Visit} {b₁ b : Broker} {env₁ env₂ : Env} {req : SettleReq} {raw : Bytes}
    {t : Token} {out : SettleResponse} (r₁ : Runs h₁ b₁) (hm : ∀ v ∈ h₁, ReapsMarked v) (hone : req.texts = [raw])
    (ht : parseToken raw = .ok t) (hfirst : (handleSettle env₁ .ack req b₁).2 = .json out)
    (hok : out.results.map SettleItemResult.result = [.ok])
    (r₂ : History Broker.exec (handleSettle env₁ .ack req b₁).1 h₂ b)
    (hquiet : ∀ v ∈ h₂, ¬ Disturbs v (t.stream, t.consumer)) :
    ((handleSettle env₂ .ack req b).2.status = 200 ↔
      req.single = false ∧ b.latched = false ∧ 1 ≤ env₂.opts.maxSettleBatch) ∧
    (b.latched = false → 1 ≤ env₂.opts.maxSettleBatch →
      (handleSettle env₂ .ack req b).2 =
        if req.single then .error (.stale t.staleItem) else .json ⟨[t.staleItem], 0, 1, 0⟩) := by
  obtain ⟨hs, l₀, hl₀, hep₀, hg₀⟩ := gone_of_acked r₁ hm hone ht hfirst hok
  obtain ⟨-, l, hl, hep, hg⟩ := gone_kept r₂ hs hl₀ hg₀ hquiet
  obtain ⟨p, hp⟩ : ∃ p, parseSettleReq .ack req = .ok p := by
    cases hp : parseSettleReq .ack req with
    | ok p => exact ⟨p, rfl⟩
    | error e =>
      rw [handleSettle, hp] at hfirst
      cases hfirst
  obtain ⟨it, rfl, -, rfl⟩ := parseSettleReq_one hone ht hp
  rw [handleSettle_gone hp hl (hep.trans hep₀) hg]
  constructor
  · split
    · rename_i hcap
      exact iff_of_false (by simp [Response.status, SettleError.code, Code.status]) (by omega)
    · rename_i hcap
      have hcap : 1 ≤ env₂.opts.maxSettleBatch := by omega
      cases b.latched <;> cases req.single <;> simp [Response.status, SettleError.code, Code.status, hcap]
  · intro hlatch hcap
    rw [if_neg (by omega), hlatch]
    rfl

/-! ## Two lives of a token -/

/-- A message is published and fetched. -/
def fetchedSetup : List (ℤ × Request) := aSetup 1 ++ [(10, aFetch 1)]

/-- The text of its token. -/
def fetchedToken : Bytes := (anItem .ack 1 1 1).1.token.string

/-- The acknowledgement of the token, spelled `{"token": …}` and `{"tokens": […]}`. -/
def singleAck : SettleReq := { token := fetchedToken }

def batchAck : SettleReq := { tokens := [fetchedToken] }

/-- What happens between two requests: another publish and another fetch. -/
def meanwhile : List Step :=
  [⟨.atMs 25, aPublish⟩, ⟨.atMs 26, aFetch 1⟩]

/-- The broker after a first request and what happens then. -/
def afterAck (req : SettleReq) : Broker :=
  run Broker.exec (handleSettle (.atMs 20) .ack req (playState fetchedSetup)).1 meanwhile

theorem repeated_ack_answered_batchAck :
    (handleSettle (.atMs 30) .ack batchAck (afterAck batchAck)).2.status = 200 := by
  have hquiet : ∀ v ∈ trace Broker.exec (handleSettle (.atMs 20) .ack batchAck (playState fetchedSetup)).1 meanwhile,
      v.act.req.disturbs (aStream, aConsumer) = false := by decide +kernel
  have hfirst : (handleSettle (.atMs 20) .ack batchAck (playState fetchedSetup)).2 =
      .json ⟨[⟨fetchedToken, .ok, .none, 1, 0⟩], 1, 0, 0⟩ := by decide +kernel
  refine (repeated_ack_answered (t := (anItem .ack 1 1 1).1.token) (runs_play fetchedSetup) (by decide +kernel)
    (show batchAck.texts = [fetchedToken] from rfl) (by decide +kernel) hfirst (by decide +kernel)
    (history_trace _ meanwhile) ?_).1.mpr (by decide +kernel)
  rintro v hv ⟨hd, -⟩
  exact absurd ((hquiet v hv).symm.trans hd) (by decide)

theorem single_ack_repeated_conflicts :
    Runs (play fetchedSetup) (playState fetchedSetup) ∧
    (handleSettle (.atMs 20) .ack singleAck (playState fetchedSetup)).2 =
      .json ⟨[⟨fetchedToken, .ok, .none, 1, 0⟩], 1, 0, 0⟩ ∧
    (∀ v ∈ trace Broker.exec (handleSettle (.atMs 20) .ack singleAck (playState fetchedSetup)).1 meanwhile,
      v.act.req.disturbs (aStream, aConsumer) = false) ∧
    (handleSettle (.atMs 30) .ack singleAck (afterAck singleAck)).2 =
      .error (.stale ⟨fetchedToken, .stale, .none, 1, 0⟩) ∧
    (handleSettle (.atMs 30) .ack singleAck (afterAck singleAck)).2.status = 409 :=
  ⟨runs_play fetchedSetup, by decide +kernel⟩

end Messq

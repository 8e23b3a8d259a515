import Messq.Refinement

/-! # The tables stay sound

Every committed request keeps `Store.Sound` (`effect_sound`), so every run does (`Runs.sound`). A consumer's ledger
is sound because the request is a step of it; only a consumer that was just inserted needs an argument of its own. -/

namespace Messq

open Lib Relation

variable {b : Broker} {env : Env} {reply : Reply} {req : Request} {name stream : Bytes} {k : Bytes × Bytes}

section Sound

variable {st st' : Store} (hs : st.Sound) (hl : ∀ k c, st'.consumers.find? k = some c → (st'.ledger c).Sound)

include hs hl

theorem Background.sound (h : Background st st') : st'.Sound where
  ledger := hl
  next s r' hr' := by
    cases hr : st.streamSeq.find? s with
    | none => exact h.seeded s r' hr' hr
    | some r =>
      obtain ⟨r₁, hr₁, hle⟩ := h.seq s r hr
      obtain rfl : r' = r₁ := Option.some.inj (hr'.symm.trans hr₁)
      exact (hs.next s r hr).trans hle
  hwm := by rw [h.metaTable]; exact hs.hwm
  stats s hst := by
    rcases h.stats s hst with hst | hst
    · obtain ⟨r, hr⟩ := Option.ne_none_iff_exists'.mp (hs.stats s hst)
      obtain ⟨r', hr', -⟩ := h.seq s r hr
      simp [hr']
    · exact hst
  home k hk := by
    rw [h.consumers] at hk
    obtain ⟨hseq, hreap⟩ := hs.home k hk
    obtain ⟨r, hr⟩ := Option.ne_none_iff_exists'.mp hseq
    obtain ⟨r', hr', -⟩ := h.seq k.1 r hr
    exact ⟨by simp [hr'], by rw [h.metaTable]; exact hreap⟩
  owner k hk := by
    obtain ⟨d', hd'⟩ := Option.ne_none_iff_exists'.mp hk
    obtain ⟨d, hd, -⟩ := h.kept k d' hd'
    rw [h.consumers]
    exact hs.owner k (by simp [hd])
  stored s q hreap hm := by
    rw [h.metaTable] at hreap
    obtain ⟨m', hm'⟩ := Option.ne_none_iff_exists'.mp hm
    rcases h.stored s q m' hm' with ⟨m, hm, -⟩ | ha
    · obtain ⟨r, hr, h1, hlt⟩ := hs.stored s q hreap (by simp [hm])
      obtain ⟨r', hr', hle⟩ := h.seq s r hr
      exact ⟨r', hr', h1, hlt.trans_le hle⟩
    · obtain ⟨r', hr', hlt⟩ := ha.below
      refine ⟨r', hr', ?_, hlt⟩
      cases hr : st.streamSeq.find? s with
      | none => exact ha.pos hr
      | some r => exact (hs.next s r hr).trans (ha.above r hr)
  config := by rw [h.consumers]; exact hs.config

theorem StreamCreated.sound {row : StreamRow} (h : StreamCreated st row st') : st'.Sound := by
  obtain ⟨next, hres, hseq⟩ := h.seq
  have hpos : 1 ≤ next := by
    rcases hres with ⟨-, rfl⟩ | ⟨hwm, hrow, rfl⟩
    · exact le_rfl
    · obtain ⟨n, hn, h0⟩ := hs.hwm row.name _ hrow
      cases hn
      omega
  have hkeep : ∀ s, st.streamSeq.find? s ≠ none → st'.streamSeq.find? s = st.streamSeq.find? s := by
    intro s hne
    rw [hseq, if_neg]
    rintro rfl
    exact hne h.fresh
  refine ⟨fun s r hr => ?_, ?_, fun s hst => ?_, fun k hk => ?_, ?_, fun s q hreap hm => ?_, ?_, hl⟩
  · rw [hseq] at hr
    split at hr
    · cases hr; exact hpos
    · exact hs.next s r hr
  · rw [h.metaTable]; exact hs.hwm
  · rw [h.stats] at hst
    split at hst
    · rename_i hn; rw [hseq, if_pos hn]; exact Option.some_ne_none _
    · rw [hkeep s (hs.stats s hst)]; exact hs.stats s hst
  · rw [h.consumers] at hk
    rw [h.metaTable, hkeep _ (hs.home k hk).1]
    exact hs.home k hk
  · rw [h.deliveries, h.consumers]; exact hs.owner
  · rw [h.metaTable] at hreap
    rw [h.messages] at hm
    obtain ⟨r, hr, hq⟩ := hs.stored s q hreap hm
    exact ⟨r, by rw [hkeep s (by simp [hr])]; exact hr, hq⟩
  · rw [h.consumers]; exact hs.config

theorem StreamDeleted.sound (h : StreamDeleted st name st') : st'.Sound := by
  obtain ⟨row, hrow⟩ := Option.ne_none_iff_exists'.mp (hs.stats name h.existed)
  refine ⟨fun s r hr => ?_, fun s row' hrow' => ?_, fun s hst => ?_, fun k hk => ?_, fun k hk => ?_,
    fun s q hreap hm => ?_, fun k c hc => ?_, hl⟩
  · rw [h.seq] at hr
    split at hr
    · cases hr
    · exact hs.next s r hr
  · by_cases hn : s = name
    · subst hn
      rw [h.hwm, hrow] at hrow'
      cases hrow'
      have := hs.next s row hrow
      exact ⟨row.next - 1, rfl, by omega⟩
    · rw [h.other _ (by simp) (by simpa using hn)] at hrow'
      exact hs.hwm s row' hrow'
  · rw [h.stats] at hst
    rw [h.seq]
    split
    · rename_i hn; exact absurd (if_pos hn) hst
    · rename_i hn; rw [if_neg hn] at hst; exact hs.stats s hst
  · rw [h.consumers] at hk
    split at hk
    · exact absurd rfl hk
    · rename_i hn
      rw [h.seq, if_neg hn, h.other _ (by simpa using hn) (by simp)]
      exact hs.home k hk
  · rw [h.deliveries] at hk
    rw [h.consumers]
    split at hk
    · exact absurd rfl hk
    · rename_i hn
      rw [if_neg hn]
      exact hs.owner k hk
  · by_cases hn : s = name
    · subst hn
      exact absurd hreap h.marked
    · rw [h.other _ (by simpa using hn) (by simp)] at hreap
      rw [h.messages] at hm
      rw [h.seq, if_neg hn]
      exact hs.stored s q hreap hm
  · rw [h.consumers] at hc
    split at hc
    · cases hc
    · exact hs.config k c hc

theorem Reaped.sound (h : Reaped st name st') : st'.Sound := by
  have hmeta : ∀ k, k ≠ .reap name → st'.metaTable.find? k = st.metaTable.find? k := by
    intro k hk
    rcases h.metaTable with hm | ⟨hm, -⟩
    · rw [hm]
    · rw [hm, if_neg hk]
  have hunmarked : ∀ s, st.metaTable.find? (.reap s) = none → st'.metaTable.find? (.reap s) = none := by
    intro s hn
    rcases h.metaTable with hm | ⟨hm, -⟩
    · rw [hm]; exact hn
    · rw [hm]; split <;> [rfl; exact hn]
  refine ⟨by rw [h.seq]; exact hs.next, fun s row hrow => hs.hwm s row (by rw [← hmeta _ (by simp)]; exact hrow),
    by rw [h.stats, h.seq]; exact hs.stats, fun k hk => ?_, by rw [h.deliveries, h.consumers]; exact hs.owner,
    fun s q hreap hm => ?_, by rw [h.consumers]; exact hs.config, hl⟩
  · rw [h.consumers] at hk
    rw [h.seq]
    exact ⟨(hs.home k hk).1, hunmarked _ (hs.home k hk).2⟩
  · obtain ⟨m, hm⟩ := Option.ne_none_iff_exists'.mp hm
    rw [h.seq]
    refine hs.stored s q ?_ (by simp [h.messages _ m hm])
    rcases h.metaTable with hmt | ⟨hmt, hnone⟩
    · rw [← hmt]; exact hreap
    · -- the marker went with the last message
      have hne : s ≠ name := by
        rintro rfl
        rw [hnone q] at hm
        cases hm
      rw [hmt, if_neg (by simpa using hne)] at hreap
      exact hreap

theorem Restarted.sound (h : Restarted env st st') : st'.Sound := by
  refine ⟨by rw [h.seq]; exact hs.next, fun s row hrow => hs.hwm s row (by rw [← h.other _ (by simp)]; exact hrow),
    by rw [h.stats, h.seq]; exact hs.stats, fun k hk => ?_, fun k hk => ?_, fun s q _ hm => ?_,
    by rw [h.consumers]; exact hs.config, hl⟩
  · rw [h.consumers] at hk
    exact ⟨by rw [h.seq]; exact (hs.home k hk).1, h.cleared k.1⟩
  · rw [h.consumers]
    refine hs.owner k fun hn => hk ?_
    rw [h.deliveries, hn]
    rfl
  · obtain ⟨m', hm'⟩ := Option.ne_none_iff_exists'.mp hm
    obtain ⟨m, hm, -⟩ := h.messages _ m' hm'
    rw [h.seq]
    refine hs.stored s q (Classical.byContradiction fun hr => ?_) (by simp [hm])
    rw [h.marked (s, q) hr] at hm'
    cases hm'

theorem Purged.sound {hit : ℤ → Prop} (h : Purged st stream hit st') : st'.Sound := by
  have hback : ∀ k c', st'.consumers.find? k = some c' → ∃ c, st.consumers.find? k = some c ∧
      c'.maxDeliver = c.maxDeliver ∧ c.generation ≤ c'.generation := by
    rintro ⟨s, n⟩ c' hc'
    by_cases hk : s = stream
    · subst hk
      cases hc : st.consumers.find? (s, n) with
      | none => rw [h.absent n hc] at hc'; cases hc'
      | some c =>
        obtain ⟨cursor, gen, hrow, -, -, hgen⟩ := h.row n c hc
        obtain rfl : c' = _ := Option.some.inj (hc'.symm.trans hrow)
        refine ⟨c, rfl, rfl, ?_⟩
        show c.generation ≤ gen
        omega
    · rw [h.elsewhere _ hk] at hc'
      exact ⟨c', hc', rfl, le_rfl⟩
  have hkeep : ∀ k, st.consumers.find? k ≠ none → st'.consumers.find? k ≠ none := by
    rintro ⟨s, n⟩ hk
    by_cases hks : s = stream
    · subst hks
      obtain ⟨c, hc⟩ := Option.ne_none_iff_exists'.mp hk
      obtain ⟨cursor, gen, hrow, -⟩ := h.row n c hc
      simp [hrow]
    · rw [h.elsewhere _ hks]; exact hk
  refine ⟨by rw [h.seq]; exact hs.next, by rw [h.metaTable]; exact hs.hwm,
    fun s hst => by rw [h.seq]; exact hs.stats s (mt (h.stats.none_iff s).mpr hst), fun k hk => ?_, fun k hk => ?_,
    fun s q hreap hm => ?_, fun k c' hc' => ?_, hl⟩
  · obtain ⟨c', hc'⟩ := Option.ne_none_iff_exists'.mp hk
    obtain ⟨c, hc, -⟩ := hback k c' hc'
    rw [h.seq, h.metaTable]
    exact hs.home k (by simp [hc])
  · obtain ⟨d, hd⟩ := Option.ne_none_iff_exists'.mp hk
    exact hkeep _ (hs.owner k (by simp [((h.deliveries k d).mp hd).1]))
  · obtain ⟨m, hm⟩ := Option.ne_none_iff_exists'.mp hm
    rw [h.metaTable] at hreap
    rw [h.seq]
    exact hs.stored s q hreap (by simp [((h.messages _ m).mp hm).1])
  · obtain ⟨c, hc, hmax, hgen⟩ := hback k c' hc'
    obtain ⟨h1, h2⟩ := hs.config k c hc
    rw [hmax]
    exact ⟨h1.trans hgen, h2⟩

theorem Confined.sound {pair : Bytes × Bytes} (h : Confined st pair st')
    (hh : st'.consumers.find? pair ≠ none → st.streamSeq.find? pair.1 ≠ none ∧ st.metaTable.find? (.reap pair.1) = none)
    (ho : st'.consumers.find? pair = none → ∀ q, st'.deliveries.find? (pair.1, pair.2, q) = none)
    (hcfg : ∀ c, st'.consumers.find? pair = some c →
      1 ≤ c.generation ∧ 0 ≤ c.maxDeliver ∧ c.maxDeliver ≤ maxDeliverCap) : st'.Sound := by
  refine ⟨by rw [h.seq]; exact hs.next, fun s row => by rw [h.hwm]; exact hs.hwm s row,
    by rw [h.stats, h.seq]; exact hs.stats, fun k hk => ?_, fun k hk => ?_,
    fun s q hreap hm => by rw [h.seq]; exact hs.stored s q (h.reap s ▸ hreap) (h.messages ▸ hm), fun k c hc => ?_, hl⟩
  · rw [h.seq, h.reap]
    by_cases hp : k = pair
    · exact hp ▸ hh (hp ▸ hk)
    · rw [h.consumers k hp] at hk
      exact hs.home k hk
  · by_cases hp : (k.1, k.2.1) = pair
    · subst hp
      exact fun hn => hk (ho hn k.2.2)
    · rw [h.deliveries k hp] at hk
      rw [h.consumers _ hp]
      exact hs.owner k hk
  · by_cases hp : k = pair
    · exact hcfg c (hp ▸ hc)
    · rw [h.consumers k hp] at hc
      exact hs.config k c hc

end Sound

/-! ## New consumers -/

/-- The request writes rows of consumers. -/
def Request.touches : Request → Bool
  | .deleteStream .. | .createConsumer .. | .updateConsumer .. | .deleteConsumer .. | .setPaused .. | .fetch ..
  | .seek ..
  | .purge .. => true
  | _ => false

/-- **Frame.** Every other request leaves the consumers alone. -/
theorem effect_touches {st st' : Store} (he : Effect env st req reply st')
    (hsame : st'.consumers.find? k ≠ st.consumers.find? k) : req.touches = true := by
  cases req with
  | createStream cfg actor =>
    rcases he with rfl | he
    · exact absurd rfl hsame
    · exact absurd (by rw [he.consumers]) hsame
  | reapChunk name => exact absurd (by rw [Reaped.consumers he]) hsame
  | reapResume =>
    rcases he with rfl | ⟨name, -, he⟩
    · exact absurd rfl hsame
    · exact absurd (by rw [he.consumers]) hsame
  | restart unclean => exact absurd (by rw [Restarted.consumers he]) hsame
  | updateStream | publish | publishBatch | sweepDedup | settle | sweep | retire | retention | trimEvents
  | adminAction =>
    exact absurd (by rw [(Moves.background he).consumers]) hsame
  | deleteStream | createConsumer | updateConsumer | deleteConsumer | setPaused | fetch | seek | purge => rfl

/-- The request deletes the consumer `k` or its stream. -/
def Request.deletes (req : Request) (k : Bytes × Bytes) : Bool :=
  match req with
  | .deleteStream s _ _ => s == k.1
  | .deleteConsumer s n _ => (s, n) == k
  | _ => false

/-- What a request does to the row of one consumer. -/
inductive RowChange (env : Env) (st : Store) (k : Bytes × Bytes) (st' : Store) : Request → Prop
  | same {req : Request} (h : st'.consumers.find? k = st.consumers.find? k) : RowChange env st k st' req
  | removed {req : Request} (hreq : req.deletes k = true) (h : st'.consumers.find? k = none)
    (hd : ∀ q, st'.deliveries.find? (k.1, k.2, q) = none) : RowChange env st k st' req
  | inserted {cfg : ConsumerConfig} {start : StartPosition} {actor : Bytes} (hk : k.2 = cfg.name)
    (h : ConsumerInserted st k.1 cfg start st') : RowChange env st k st' (.createConsumer k.1 cfg start actor)
  /-- By a create or by a patch, whose result is validated. -/
  | reconfigured {req : Request} (c : ConsumerRow) (cursor : ℤ) (cfg : ConsumerConfig)
      (hc : st.consumers.find? k = some c)
    (hval : (∃ start actor, req = .createConsumer k.1 cfg start actor ∧ k.2 = cfg.name) ∨
      validateDeadPolicyForStream k.1 cfg.deadPolicy = .ok () ∧
        validateConsumerConfig cfg env.opts.consumerLimits = .ok ())
    (h : st'.consumers.find? k = some ({ c with cursorSeq := cursor }.withConfig cfg)) : RowChange env st k st' req
  /-- A pause, a fetch, a seek or a purge. -/
  | altered {req : Request} (c : ConsumerRow) (cursor gen : ℤ) (paused : Bool) (hc : st.consumers.find? k = some c)
    (hg : c.generation ≤ gen)
    (h : st'.consumers.find? k = some { c with cursorSeq := cursor, generation := gen, paused := paused }) :
    RowChange env st k st' req

theorem effect_consumer {st st' : Store} (hs : st.Sound) (he : Effect env st req reply st') (k : Bytes × Bytes) :
    RowChange env st k st' req := by
  by_cases hsame : st'.consumers.find? k = st.consumers.find? k
  · exact .same hsame
  have hconf : ∀ {pair}, Confined st pair st' → pair = k := fun h =>
    Classical.byContradiction fun hp => hsame (h.consumers k (Ne.symm hp))
  cases req with
  | createConsumer stream cfg start actor =>
    obtain ⟨hcf, he⟩ := he
    obtain rfl := hconf hcf
    rcases he with rfl | he | he
    · exact absurd rfl hsame
    · exact .inserted (k := (stream, cfg.name)) rfl he
    · cases hc : st.consumers.find? (stream, cfg.name) with
      | none => exact absurd (by rw [he.row, hc]; rfl) hsame
      | some c => exact .reconfigured c c.cursorSeq cfg hc (.inl ⟨start, actor, rfl, rfl⟩) (by rw [he.row, hc]; rfl)
  | updateConsumer stream name p actor =>
    obtain ⟨hcf, rfl | ⟨c, hc, hval, he⟩⟩ := he
    · exact absurd rfl hsame
    · obtain rfl := hconf hcf
      obtain ⟨rfl, rfl⟩ := pair_of_find? hc
      obtain ⟨cursor, hrow, -⟩ := he.step (hs.ledger _ c hc) hc hcf.seq
      exact .reconfigured c cursor _ hc (.inr hval) hrow
  | deleteStream name confirm actor =>
    have hd := StreamDeleted.consumers he k
    split at hd
    · rename_i hk
      exact .removed (by simp [Request.deletes, hk]) hd fun q => by simp [StreamDeleted.deliveries he, hk]
    · exact absurd hd hsame
  | deleteConsumer stream name actor =>
    obtain ⟨hcf, hn, hd⟩ := he
    obtain rfl := hconf hcf
    exact .removed (by simp [Request.deletes]) hn hd
  | setPaused stream name paused actor =>
    obtain ⟨hcf, -, hr⟩ := he
    obtain rfl := hconf hcf
    have hr := hr.resolve_left hsame
    cases hc : st.consumers.find? (stream, name) with
    | none => exact absurd (by rw [hr, hc]; rfl) hsame
    | some c => exact .altered c c.cursorSeq c.generation paused hc le_rfl (by rw [hr, hc]; rfl)
  | fetch stream consumer batch maxBytes =>
    obtain ⟨r, c, -, hc, -, -, -, hcf, ⟨-, rfl⟩ | he⟩ := he
    · exact absurd rfl hsame
    · obtain rfl := hconf hcf
      obtain ⟨rfl, rfl⟩ := pair_of_find? hc
      exact .altered c _ c.generation c.paused hc le_rfl (he.step hs hc hcf).1
  | seek stream consumer dest dryRun actor =>
    obtain ⟨hcf, ⟨-, rfl⟩ | ⟨-, he⟩⟩ := he
    · exact absurd rfl hsame
    · obtain rfl := hconf hcf
      obtain ⟨c, _, _, cursor, hc, -, hr⟩ := he.row
      exact .altered c cursor (c.generation + 1) c.paused hc (Int.le_add_one le_rfl) hr
  | purge stream spec dryRun actor =>
    rcases he with rfl | ⟨-, he⟩
    · exact absurd rfl hsame
    · obtain ⟨s, n⟩ := k
      by_cases hk : s = stream
      · subst hk
        cases hc : st.consumers.find? (s, n) with
        | none => exact absurd ((he.absent n hc).trans hc.symm) hsame
        | some c =>
          obtain ⟨cursor, gen, hr, -, -, hg⟩ := he.row n c hc
          exact .altered c cursor gen c.paused hc (by omega) hr
      · exact absurd (he.elsewhere _ hk) hsame
  | createStream | reapChunk | reapResume | restart | updateStream | publish | publishBatch | sweepDedup | settle
  | sweep
  | retire | retention | trimEvents | adminAction => cases effect_touches he hsame

/-- Only a create brings a consumer that was not there. -/
theorem effect_inserted {st st' : Store} (hs : st.Sound) (he : Effect env st req reply st')
    (hn : st.consumers.find? k = none) (hk : st'.consumers.find? k ≠ none) :
    ∃ cfg start actor, req = .createConsumer k.1 cfg start actor ∧ k.2 = cfg.name ∧
      ConsumerInserted st k.1 cfg start st' := by
  cases effect_consumer hs he k with
  | same h => exact absurd (h.trans hn) hk
  | removed _ h _ => exact absurd h hk
  | inserted hname h => exact ⟨_, _, _, rfl, hname, h⟩
  | reconfigured c _ _ hc | altered c _ _ _ hc => cases hn.symm.trans hc

/-- A new consumer has nothing pending and a cursor within the log, at generation 1. -/
theorem ConsumerInserted.start {st st' : Store} {cfg : ConsumerConfig} {start : StartPosition} {c : ConsumerRow}
    (h : ConsumerInserted st stream cfg start st') (hs : st.Sound) (hconf : Confined st (stream, cfg.name) st')
    (hc : st'.consumers.find? (stream, cfg.name) = some c) :
    c.generation = 1 ∧ c.maxDeliver = cfg.maxDeliver ∧ (∀ q, (st'.ledger c).slot q = none) ∧
      ∃ head, Resolved st stream start c.cursorSeq head ∧ st.Bounded stream head.next ∧
        st'.headOf stream = head.next := by
  obtain ⟨head, cursor, createdAt, hres, hrow⟩ := h.row
  obtain rfl : c = newConsumer stream cfg cursor createdAt := Option.some.inj (hc.symm.trans hrow)
  have hnext : st'.headOf stream = head.next := by rw [Store.headOf, hconf.seq, hres.head]; rfl
  refine ⟨rfl, rfl, fun q => slot_eq_none.mpr ?_, head, hres, ⟨hs.next _ _ hres.head, fun q m hm => ?_⟩, hnext⟩
  · rw [h.deliveries]
    exact Classical.byContradiction fun hd => hs.owner _ hd h.fresh
  · obtain ⟨r, hr, hq⟩ := hs.stored stream q h.unmarked (by simp [hm])
    obtain rfl : head = r := Option.some.inj (hres.head.symm.trans hr)
    exact hq

/-- An empty pending set with a cursor within the log. -/
theorem sound_of_empty {l : Ledger} (h1 : 1 ≤ l.cursor) (h2 : l.cursor ≤ l.head) (h3 : ∀ q, l.slot q = none) :
    l.Sound where
  cursor_pos := h1
  cursor_le := h2
  range q t ht := by simp [h3 q] at ht
  attempts q t ht := by simp [h3 q] at ht
  fresh q t ht := by simp [h3 q] at ht

/-! ## Runs -/

theorem effect_ledger {st st' : Store} (hs : st.Sound) (he : Effect env st req reply st') :
    ∀ k c, st'.consumers.find? k = some c → (st'.ledger c).Sound := by
  intro k c' hc'
  cases hc : st.consumers.find? k with
  | some c => exact (effect_step hs he hc hc').sound (hs.ledger k c hc)
  | none =>
    obtain ⟨cfg, start, actor, rfl, hk, hins⟩ := effect_inserted hs he hc (by simp [hc'])
    obtain ⟨stream, name⟩ := k
    obtain rfl : name = cfg.name := hk
    obtain ⟨-, -, hslot, head, hres, hb, hnext⟩ := hins.start hs he.1 hc'
    obtain ⟨hlo, hhi⟩ := hres.range hb
    refine sound_of_empty (hb.floor.1.trans hlo) ?_ hslot
    show c'.cursorSeq ≤ st'.headOf c'.stream
    rw [(pair_of_find? hc').1, hnext]
    exact hhi

/-- **Step.** Every committed request keeps the tables sound. -/
theorem effect_sound {st st' : Store} (hs : st.Sound) (hchk : checkRequest env req = .ok ())
    (he : Effect env st req reply st') : st'.Sound := by
  have hl := effect_ledger hs he
  cases he.shape with
  | same => exact hs
  | created h => exact h.sound hs hl
  | deleted h => exact h.sound hs hl
  | reaped _ h => exact h.sound hs hl
  | @confined _ pair _ hconf hrows =>
    have hnew : ∀ {cfg start actor}, req = .createConsumer pair.1 cfg start actor →
        0 ≤ cfg.maxDeliver ∧ cfg.maxDeliver ≤ maxDeliverCap := by
      rintro cfg start actor rfl
      simp only [checkRequest, bind_eq_ok] at hchk
      obtain ⟨-, -, -, -, hchk⟩ := hchk
      exact (validateConsumerConfig_eq_ok.mp hchk).maxDeliver
    have hchange := effect_consumer hs he pair
    refine hconf.sound hs hl (fun hn => ?_) (fun hn q => ?_) fun c' hc' => ?_
    · cases hchange with
      | same h => exact hs.home _ (h ▸ hn)
      | removed _ h _ => exact absurd h hn
      | inserted _ h =>
        obtain ⟨head, _, _, hres, -⟩ := h.row
        exact ⟨by simp [hres.head], h.unmarked⟩
      | reconfigured c _ _ hc | altered c _ _ _ hc => exact hs.home _ (by simp [hc])
    · cases hchange with
      | same h =>
        rcases hrows with ⟨-, hc⟩ | hrows
        · exact absurd (h ▸ hn) hc
        · cases hd : st'.deliveries.find? (pair.1, pair.2, q) with
          | none => rfl
          | some d => exact absurd (h ▸ hn) (hs.owner (pair.1, pair.2, q) (by simp [hrows _ d hd]))
      | removed _ _ hd => exact hd q
      | inserted hk h =>
        obtain ⟨_, _, _, -, hrow⟩ := h.row
        rw [← hk] at hrow
        cases hn.symm.trans hrow
      | reconfigured _ _ _ _ _ h | altered _ _ _ _ _ _ h => cases hn.symm.trans h
    · cases hchange with
      | same h => exact hs.config _ c' (h ▸ hc')
      | removed _ h _ => cases hc'.symm.trans h
      | inserted hk h =>
        obtain ⟨_, _, _, -, hrow⟩ := h.row
        rw [← hk] at hrow
        obtain rfl : c' = _ := Option.some.inj (hc'.symm.trans hrow)
        exact ⟨le_rfl, hnew rfl⟩
      | reconfigured c _ cfg hc hval h =>
        obtain rfl : c' = _ := Option.some.inj (hc'.symm.trans h)
        refine ⟨(hs.config _ c hc).1, ?_⟩
        rcases hval with ⟨_, _, hreq, -⟩ | ⟨-, hval⟩
        · exact hnew hreq
        · exact (validateConsumerConfig_eq_ok.mp hval).maxDeliver
      | altered c _ _ _ hc hg h =>
        obtain rfl : c' = _ := Option.some.inj (hc'.symm.trans h)
        exact ⟨(hs.config _ c hc).1.trans hg, (hs.config _ c hc).2⟩
  | purged h => exact h.sound hs hl
  | restarted h => exact h.sound hs hl
  | moved _ h => exact h.background.sound hs hl

/-- So does every run of acts. -/
theorem Acts.sound {kind : Kind} {st st' : Store} (h : Acts env kind st st') (hs : st.Sound) : st'.Sound := by
  have he : Effect env st (.sweepDedup []) .done st' := Acts.moves h
  exact (Moves.background he).sound hs (effect_ledger hs he)

theorem sound_empty : Store.Sound {} where
  next _ _ h := nomatch h
  hwm _ _ h := nomatch h
  stats _ h := absurd rfl h
  home _ h := absurd rfl h
  owner _ h := absurd rfl h
  stored _ _ _ h := absurd rfl h
  config _ _ h := nomatch h
  ledger _ _ h := nomatch h

theorem Store.Sound.uncarried {st : Store} (h : st.Sound) (es : List Event) : { st with carriers := es }.Sound :=
  ⟨h.next, h.hwm, h.stats, h.home, h.owner, h.stored, h.config, h.ledger⟩

/-- A committed step is an effect on the broker's tables. -/
theorem Committed.effect {s : Step} {st : Store} (h : Committed b s reply st) :
    Effect s.env { b.store with carriers := [] } s.req reply st := applyRequest_effect h.run

theorem exec_sound (h : b.store.Sound) (s : Step) : (b.exec s).1.store.Sound := by
  rcases exec_cases b s with ⟨reply, st, hc⟩ | ⟨hst, -⟩
  · rw [hc.post]
    exact (effect_sound (h.uncarried []) hc.checked hc.effect).uncarried []
  · rw [hst]; exact h

/-- **Run.** The tables are sound in every state of every run. -/
theorem Runs.sound {h : List Visit} (r : Runs h b) : b.store.Sound := by
  refine History.invariant (C := fun _ _ => True) (I := fun _ b => b.store.Sound) r (fun _ _ _ _ => trivial)
    sound_empty ?_
  intro _ b s hb _
  exact exec_sound hb s

end Messq

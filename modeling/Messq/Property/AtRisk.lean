import Messq.Property.Eviction

/-! # What a narrower limit puts at risk

Before an update narrows a stream, a window query counts what the new limits would delete: it gives every message its
rank and its running size from the newest one on, and counts those that some limit cuts off. The planner comes from the
other side, from the oldest message, with what is left of its quotas. Where no message is pinned, both cut off the same
beginning of the stream (`measureUsage_eq_plan`), up to the last message, which only age may take. -/

namespace Messq

open Lib Table

variable {st : Store} {name : Bytes} {next : StreamConfig} {nowMs : ℤ} {m : MessageRow} {post pre : List MessageRow}
  {v : RetentionView}

/-! ## The window query -/

section Window

/-- The rows that the window functions of the query sum up at the row `m`: it and what is newer. -/
def Store.frame (st : Store) (name : Bytes) (m : MessageRow) : List MessageRow :=
  (st.messagesOf name).filter fun k => m.seq ≤ k.seq

/-- The view that the planner has of a stream with `counts` messages and bytes under the limits `next`. -/
def StreamConfig.view (next : StreamConfig) (counts : ℤ × ℤ) (nowMs : ℤ) : RetentionView where
  maxMsgs := next.maxMsgs
  maxBytes := next.maxBytes
  maxAgeMs := milliseconds next.maxAge
  msgs := counts.1
  bytes := counts.2
  nowMs := nowMs

/-- The age limit asks for the message. -/
def StreamConfig.expires (next : StreamConfig) (nowMs : ℤ) (m : MessageRow) : Bool :=
  milliseconds next.maxAge > 0 ∧ m.publishedAt < nowMs - milliseconds next.maxAge

/-- The condition of the query: the row is too old, or its rank or its running size exceeds a limit. -/
def Store.cutsOff (st : Store) (name : Bytes) (next : StreamConfig) (nowMs : ℤ) (m : MessageRow) : Bool :=
  next.expires nowMs m || (next.view (st.tally name) nowMs).exceeded (Lib.tally MessageRow.size (st.frame name m))

/-- The messages that the query counts. -/
def Store.riskedBy (st : Store) (name : Bytes) (next : StreamConfig) (nowMs : ℤ) : List MessageRow :=
  (st.messagesOf name).filter (st.cutsOff name next nowMs)

/-- The messages of a stream, newest first. -/
def Store.newest (st : Store) (name : Bytes) : List MessageRow :=
  (st.messagesOf name).insertionSort fun a b => b.seq ≤ a.seq

theorem perm_newest (st : Store) (name : Bytes) : (st.newest name).Perm (st.messagesOf name) :=
  List.perm_insertionSort _ _

theorem pairwise_newest (st : Store) (name : Bytes) : (st.newest name).Pairwise fun a b => b.seq < a.seq :=
  strict_orderBy (fun m : MessageRow => OrderDual.toDual m.seq) st.messages.nodup_select
    fun _ ha _ hb he => seq_inj_messagesOf ha hb he

theorem pairwise_oldest (st : Store) (name : Bytes) : (st.oldest name).Pairwise fun a b => a.seq < b.seq :=
  strict_orderBy MessageRow.seq st.messages.nodup_select fun _ ha _ hb he => seq_inj_messagesOf ha hb he

/-- From the newest message on, the frame of a row is what came before it, and the row. -/
theorem tally_frame_newest (h : st.newest name = pre ++ m :: post) :
    Lib.tally MessageRow.size (st.frame name m) = Lib.tally MessageRow.size (pre ++ [m]) := by
  have hsort := pairwise_newest st name
  rw [h] at hsort
  obtain ⟨-, hpost, hbefore⟩ := List.pairwise_append.mp hsort
  have hpre : (pre ++ [m]).filter (fun k => m.seq ≤ k.seq) = pre ++ [m] := by
    refine List.filter_eq_self.mpr fun k hk => decide_eq_true ?_
    rcases List.mem_append.mp hk with hk | hk
    · exact (hbefore k hk m List.mem_cons_self).le
    · rw [List.mem_singleton.mp hk]
  have hrest : post.filter (fun k => m.seq ≤ k.seq) = [] := by
    refine List.filter_eq_nil_iff.mpr fun k hk => ?_
    rw [decide_eq_true_iff, not_le]
    exact List.rel_of_pairwise_cons hpost hk
  rw [Store.frame, tally_perm _ ((perm_newest st name).symm.filter _), h, List.append_cons,
    List.filter_append, hpre, hrest,
    List.append_nil]

/-- From the oldest message on, the frame of a row is the row and what comes after it. -/
theorem tally_frame_oldest (h : st.oldest name = pre ++ m :: post) :
    Lib.tally MessageRow.size (st.frame name m) = Lib.tally MessageRow.size (m :: post) := by
  have hsort := pairwise_oldest st name
  rw [h] at hsort
  obtain ⟨-, hpost, hbefore⟩ := List.pairwise_append.mp hsort
  have hpre : pre.filter (fun k => m.seq ≤ k.seq) = [] := by
    refine List.filter_eq_nil_iff.mpr fun k hk => ?_
    rw [decide_eq_true_iff, not_le]
    exact hbefore k hk m List.mem_cons_self
  have hrest : (m :: post).filter (fun k => m.seq ≤ k.seq) = m :: post := by
    refine List.filter_eq_self.mpr fun k hk => decide_eq_true ?_
    rcases List.mem_cons.mp hk with rfl | hk
    · exact le_rfl
    · exact (List.rel_of_pairwise_cons hpost hk).le
  rw [Store.frame, tally_perm _ ((perm_oldest st name).symm.filter _), h, List.filter_append, hpre, hrest,
    List.nil_append]

/-- The walk of the query, from some row on: rank and running size are the tally of what came before. -/
theorem atRisk_eq {ms : List MessageRow} (h : st.newest name = pre ++ ms) :
    atRisk next nowMs (Lib.tally MessageRow.size pre).1 (Lib.tally MessageRow.size pre).2 ms =
      (ms.filter (st.cutsOff name next nowMs)).map MessageRow.size := by
  induction ms generalizing pre with
  | nil => rfl
  | cons m ms ih =>
    have hrank : Lib.tally MessageRow.size (pre ++ [m]) =
        ((Lib.tally MessageRow.size pre).1 + 1, (Lib.tally MessageRow.size pre).2 + m.size) := by
      rw [tally_append, tally_singleton]
      rfl
    have ih := ih (h.trans (List.append_cons pre m ms))
    rw [hrank] at ih
    have hcut : st.cutsOff name next nowMs m =
        decide ((milliseconds next.maxAge > 0 ∧ m.publishedAt < nowMs - milliseconds next.maxAge) ∨
          (next.maxMsgs > 0 ∧ (Lib.tally MessageRow.size pre).1 + 1 > next.maxMsgs) ∨
          (next.maxBytes > 0 ∧ (Lib.tally MessageRow.size pre).2 + m.size > next.maxBytes)) := by
      rw [Store.cutsOff, tally_frame_newest h, hrank, Bool.decide_or]
      rfl
    simp only [atRisk, ih, ← hcut]
    by_cases hm : st.cutsOff name next nowMs m = true
    · rw [if_pos hm, List.filter_cons_of_pos hm, List.map_cons]
    · rw [if_neg hm, List.filter_cons_of_neg hm]

/-- **Query.** The estimate is the number and the size of the messages that the new limits cut off. -/
theorem measureUsage_tally (stats : StatsRow) :
    ((measureUsage st stats name next nowMs).atRiskMsgs, (measureUsage st stats name next nowMs).atRiskBytes) =
      Lib.tally MessageRow.size (st.riskedBy name next nowMs) := by
  have hrun : atRisk next nowMs 0 0 (st.newest name) =
      ((st.newest name).filter (st.cutsOff name next nowMs)).map MessageRow.size :=
    atRisk_eq (List.nil_append _).symm
  rw [Store.riskedBy, tally_perm _ ((perm_newest st name).symm.filter _), Lib.tally, ← hrun]
  refine Prod.ext ?_ rfl
  show ((atRisk next nowMs 0 0 (st.newest name)).length : ℤ) = _
  rw [hrun, List.length_map]

end Window

/-! ## The planner without pins -/

section Plan

variable {room : ℕ} {left : ℤ × ℤ} {cs ts : List Candidate}

/-- Where nothing is asked for, nothing is taken. -/
theorem Evicting.idle (h : Evicting v room left cs ts) (hidle : v.exceeded left = false)
    (hyoung : ∀ c ∈ cs, v.aged c = false) : ts = [] := by
  induction h with
  | full | done | stop => rfl
  | skip _ _ _ ih => exact ih hidle fun c hc => hyoung c (List.mem_cons_of_mem _ hc)
  | block _ _ ih => exact ih hidle fun c hc => hyoung c (List.mem_cons_of_mem _ hc)
  | take _ hpress _ _ =>
    have := (hpress (hyoung _ List.mem_cons_self)).1
    rw [hidle] at this
    cases this

/-- A limit that the end of a list exceeds is exceeded by the whole list. -/
theorem exceeded_tally_append (pre : List Candidate) (hsize : ∀ c ∈ pre, 0 ≤ c.size)
    (h : v.exceeded (Lib.tally Candidate.size (pre ++ cs)) = false) :
    v.exceeded (Lib.tally Candidate.size cs) = false := by
  obtain ⟨h₁, h₂⟩ := tally_nonneg Candidate.size hsize
  rw [tally_append] at h
  refine exceeded_mono ?_ ?_ h
  · rw [Prod.fst_add]
    omega
  · rw [Prod.snd_add]
    omega

/-- **Walk without pins.** A candidate is taken exactly if it is too old, or if what is left from it on exceeds a limit
and it is not the last one. -/
theorem Evicting.mem_iff (h : Evicting v room left cs ts) (hroom : cs.length ≤ room)
    (hleft : left = Lib.tally Candidate.size cs) (hpin : ∀ c ∈ cs, c.hasDelivery = false) (hsize : ∀ c ∈ cs, 0 ≤ c.size)
    (hnodup : cs.Nodup) (hsort : cs.Pairwise fun c d => c.publishedAt ≤ d.publishedAt) {pre post : List Candidate}
    {c : Candidate} (hcs : cs = pre ++ c :: post) :
    c ∈ ts ↔ v.aged c = true ∨ (v.exceeded (Lib.tally Candidate.size (c :: post)) = true ∧ post ≠ []) := by
  induction h generalizing pre with
  | full left cs =>
    obtain rfl := List.length_eq_zero_iff.mp (Nat.le_zero.mp hroom)
    cases pre <;> cases hcs
  | done => cases pre <;> cases hcs
  | @skip _ left d cs ts hage hidle hw _ =>
    -- the rest is neither too old nor too much
    have hyoung : ∀ e ∈ d :: cs, v.aged e = false := fun e he => by
      rcases List.mem_cons.mp he with rfl | he
      · exact hage
      · exact aged_of_le (List.rel_of_pairwise_cons hsort he) hage
    have hmem : c ∈ d :: cs := by
      rw [hcs]
      exact List.mem_append_right _ List.mem_cons_self
    have hle : v.exceeded (Lib.tally Candidate.size (c :: post)) = false := by
      refine exceeded_tally_append pre (fun e he => hsize e ?_) ?_
      · rw [hcs]
        exact List.mem_append_left _ he
      · rw [← hcs, ← hleft]
        exact hidle
    rw [hw.idle hidle fun e he => hyoung e (List.mem_cons_of_mem _ he), hyoung c hmem, hle]
    simp
  | block hblock => exact absurd (hpin _ List.mem_cons_self) (by rw [hblock]; decide)
  | @stop _ left d cs _ hage hpress hone =>
    have hnil : cs = [] := by
      have hlen : ((d :: cs).length : ℤ) = left.1 := by rw [hleft]; rfl
      rw [List.length_cons] at hlen
      exact List.length_eq_zero_iff.mp (by omega)
    subst hnil
    cases pre with
    | nil =>
      cases hcs
      simp [hage]
    | cons e pre => cases pre <;> cases hcs
  | @take _ left d cs ts _ hpress hw ih =>
    cases pre with
    | nil =>
      cases hcs
      refine ⟨fun _ => ?_, fun _ => List.mem_cons_self⟩
      cases hage : v.aged c with
      | true => exact .inl rfl
      | false =>
        obtain ⟨hex, hmany⟩ := hpress hage
        rw [hleft] at hex hmany
        refine .inr ⟨hex, ?_⟩
        rintro rfl
        exact absurd hmany (lt_irrefl 1)
    | cons e pre =>
      rw [List.cons_append] at hcs
      obtain ⟨rfl, rfl⟩ := List.cons.inj hcs
      have hrest : left - (1, d.size) = Lib.tally Candidate.size (pre ++ c :: post) := by
        rw [hleft, tally_cons, add_sub_cancel_left]
      have hne : c ≠ d := by
        rintro rfl
        exact (List.nodup_cons.mp hnodup).1 (List.mem_append_right _ List.mem_cons_self)
      rw [List.mem_cons, or_iff_right hne]
      exact ih (Nat.le_of_succ_le_succ hroom) hrest (fun e he => hpin e (List.mem_cons_of_mem _ he))
        (fun e he => hsize e (List.mem_cons_of_mem _ he)) (List.nodup_cons.mp hnodup).2 hsort.of_cons rfl

end Plan

/-! ## The estimate and the plan -/

section Estimate

/-- The newest message of a stream, when it is too large for the stream all by itself and not too old. -/
def Store.Oversized (st : Store) (name : Bytes) (next : StreamConfig) (nowMs : ℤ) (m : MessageRow) : Prop :=
  (∀ k ∈ st.messagesOf name, k.seq ≤ m.seq) ∧ next.maxBytes > 0 ∧ m.size > next.maxBytes ∧ next.expires nowMs m = false

/-- The plan for a whole stream of the store under the limits `next`. -/
def Store.wholePlan (st : Store) (name : Bytes) (next : StreamConfig) (stats : StatsRow) (nowMs : ℤ) (batch : ℕ) :
    EvictionPlan :=
  planEviction ((st.oldest name).map (st.candidate name)) (next.view stats.counts nowMs) batch

variable {stats : StatsRow} {batch : ℕ}

/-- A stream without delivery rows, with exact statistics and in the order of time, and a batch with room for all of
it. -/
@[mk_iff]
structure Store.Orderly (st : Store) (name : Bytes) (stats : StatsRow) (batch : ℕ) : Prop where
  undelivered : ∀ d ∈ st.deliveries, d.stream ≠ name
  exact : stats.counts = st.tally name
  /-- A size is a number of bytes. -/
  weighed : ∀ m ∈ st.messagesOf name, 0 ≤ m.size
  aging : ∀ m ∈ st.messagesOf name, ∀ k ∈ st.messagesOf name, m.seq ≤ k.seq → m.publishedAt ≤ k.publishedAt
  room : (st.messagesOf name).length ≤ batch

theorem tally_candidates (st : Store) (name : Bytes) (ms : List MessageRow) :
    Lib.tally Candidate.size (ms.map (st.candidate name)) = Lib.tally MessageRow.size ms := by
  rw [Lib.tally, List.length_map, List.map_map]
  rfl

theorem Store.Orderly.wholeStream (h : st.Orderly name stats batch) :
    WholeStream (next.view stats.counts nowMs) ((st.oldest name).map (st.candidate name)) where
  ascending := List.pairwise_map.mpr (pairwise_oldest st name)
  aging := by
    refine List.pairwise_map.mpr ((pairwise_oldest st name).imp_of_mem fun ha hb hab => ?_)
    exact h.aging _ ((perm_oldest st name).mem_iff.mp ha) _ ((perm_oldest st name).mem_iff.mp hb) hab.le
  weighed := List.forall_mem_map.mpr fun m hm => h.weighed m ((perm_oldest st name).mem_iff.mp hm)
  counted := by
    rw [tally_candidates, tally_perm _ (perm_oldest st name)]
    exact h.exact

theorem Store.Orderly.unpinned (h : st.Orderly name stats batch) (q : ℤ) : st.pinned name q = false := by
  refine List.any_eq_false.mpr fun d hd => ?_
  rw [Bool.and_eq_true, beq_iff_eq]
  exact fun he => h.undelivered d hd he.1

/-- The plan takes a message exactly if it is too old, or if a limit cuts it off and it is not the newest one. -/
theorem Store.Orderly.selected_iff (h : st.Orderly name stats batch) (hm : m ∈ st.messagesOf name) :
    m.seq ∈ (st.wholePlan name next stats nowMs batch).seqs ↔ next.expires nowMs m = true ∨
      (st.cutsOff name next nowMs m = true ∧ ∃ k ∈ st.messagesOf name, m.seq < k.seq) := by
  have hwhole : WholeStream (next.view stats.counts nowMs) _ := h.wholeStream
  obtain ⟨ts, hwalk, hseqs⟩ := evicting_planEviction (v := next.view stats.counts nowMs) batch hwhole.weighed
  obtain ⟨pre, post, hsplit⟩ := List.append_of_mem ((perm_oldest st name).mem_iff.mpr hm)
  have hcand : st.candidate name m ∈ (st.oldest name).map (st.candidate name) := by
    rw [hsplit]
    exact List.mem_map_of_mem (List.mem_append_right _ List.mem_cons_self)
  have hcut : st.cutsOff name next nowMs m = true ↔ next.expires nowMs m = true ∨
      (next.view stats.counts nowMs).exceeded (Lib.tally MessageRow.size (m :: post)) = true := by
    rw [Store.cutsOff, tally_frame_oldest hsplit, Bool.or_eq_true]
    rfl
  -- what stands after the message is what is newer
  have hpost : post ≠ [] ↔ ∃ k ∈ st.messagesOf name, m.seq < k.seq := by
    have hsort := pairwise_oldest st name
    simp only [← (perm_oldest st name).mem_iff]
    rw [hsplit] at hsort ⊢
    obtain ⟨-, hafter, hbefore⟩ := List.pairwise_append.mp hsort
    constructor
    · intro hne
      obtain ⟨k, hk⟩ := List.exists_mem_of_ne_nil post hne
      exact ⟨k, List.mem_append_right _ (List.mem_cons_of_mem _ hk), List.rel_of_pairwise_cons hafter hk⟩
    · rintro ⟨k, hk, hlt⟩ rfl
      rcases List.mem_append.mp hk with hk | hk
      · exact absurd (hbefore k hk m List.mem_cons_self) (not_lt.mpr hlt.le)
      · rw [List.mem_singleton.mp hk] at hlt
        exact absurd hlt (lt_irrefl _)
  have hroom : ((st.oldest name).map (st.candidate name)).length ≤ batch := by
    rw [List.length_map, (perm_oldest st name).length_eq]
    exact h.room
  have hpin : ∀ c ∈ (st.oldest name).map (st.candidate name), c.hasDelivery = false :=
    List.forall_mem_map.mpr fun k _ => h.unpinned k.seq
  have hcands : (st.oldest name).map (st.candidate name) =
      pre.map (st.candidate name) ++ st.candidate name m :: post.map (st.candidate name) := by
    rw [hsplit, List.map_append, List.map_cons]
  have htaken := hwalk.mem_iff hroom hwhole.counted hpin hwhole.weighed hwhole.nodup.of_map hwhole.aging hcands
  have hsel : m.seq ∈ (st.wholePlan name next stats nowMs batch).seqs ↔ st.candidate name m ∈ ts :=
    hwhole.mem_iff hwalk.sublist hseqs hcand
  rw [← List.map_cons, tally_candidates, Ne, List.map_eq_nil_iff, ← Ne, hpost] at htaken
  rw [hsel, htaken, hcut]
  change next.expires nowMs m = true ∨ _ ↔ _
  tauto

/-- One message alone exceeds the byte limit or no limit. -/
theorem exceeded_single {size : ℤ} : v.exceeded (1, size) = true ↔ v.maxBytes > 0 ∧ size > v.maxBytes := by
  rw [RetentionView.exceeded, stillViolating, decide_eq_true_iff]
  omega

/-- The newest message is cut off when it is too old or too large by itself. -/
theorem cutsOff_newest (hm : m ∈ st.messagesOf name) (hlast : ∀ k ∈ st.messagesOf name, k.seq ≤ m.seq) :
    st.cutsOff name next nowMs m = true ↔ next.expires nowMs m = true ∨
    (next.maxBytes > 0 ∧ m.size > next.maxBytes) := by
  obtain ⟨pre, post, hsplit⟩ := List.append_of_mem ((perm_oldest st name).mem_iff.mpr hm)
  have hsort := pairwise_oldest st name
  rw [hsplit] at hsort
  have hnil : post = [] := by
    refine List.eq_nil_iff_forall_not_mem.mpr fun k hk => ?_
    have hin : k ∈ st.oldest name := by
      rw [hsplit]
      exact List.mem_append_right _ (List.mem_cons_of_mem _ hk)
    have hlt := List.rel_of_pairwise_cons (List.pairwise_append.mp hsort).2.1 hk
    exact absurd (hlast k ((perm_oldest st name).mem_iff.mp hin)) (not_le.mpr hlt)
  subst hnil
  rw [Store.cutsOff, tally_frame_oldest hsplit, tally_singleton, Bool.or_eq_true, exceeded_single]
  rfl

/-- **Estimate.** The messages that an update counts as at risk are those that the planner selects of the whole stream,
and beyond them at most the newest message, when it alone is larger than the byte limit and not too old: it is counted
and kept. -/
theorem measureUsage_eq_plan (h : st.Orderly name stats batch) (next : StreamConfig) (nowMs : ℤ) :
    let plan := st.wholePlan name next stats nowMs batch
    let usage := measureUsage st stats name next nowMs
    (usage.atRiskMsgs, usage.atRiskBytes) = Lib.tally MessageRow.size (st.riskedBy name next nowMs) ∧
    (∀ m, m ∈ st.riskedBy name next nowMs ↔
      m ∈ st.messagesOf name ∧ (m.seq ∈ plan.seqs ∨ st.Oversized name next nowMs m)) ∧
    (∀ m ∈ st.messagesOf name, st.Oversized name next nowMs m → m.seq ∉ plan.seqs) ∧
    ∀ q ∈ plan.seqs, ∃ m ∈ st.messagesOf name, m.seq = q := by
  refine ⟨measureUsage_tally stats, fun m => ?_, fun m hm hover hsel => ?_, fun q hq => ?_⟩
  · rw [Store.riskedBy, List.mem_filter]
    refine and_congr_right fun hm => ?_
    rw [h.selected_iff hm]
    by_cases hlast : ∀ k ∈ st.messagesOf name, k.seq ≤ m.seq
    · have hnone : ¬ ∃ k ∈ st.messagesOf name, m.seq < k.seq := by
        rintro ⟨k, hk, hlt⟩
        exact absurd (hlast k hk) (not_le.mpr hlt)
      rw [cutsOff_newest hm hlast, Store.Oversized, ← Bool.not_eq_true]
      tauto
    · have hnewer : ∃ k ∈ st.messagesOf name, m.seq < k.seq := by
        push Not at hlast
        exact hlast
      have hold : next.expires nowMs m = true → st.cutsOff name next nowMs m = true := fun he => by
        rw [Store.cutsOff, he, Bool.true_or]
      have hover : ¬ st.Oversized name next nowMs m := fun ho => hlast ho.1
      rw [or_iff_left hover, and_iff_left hnewer, or_iff_right_of_imp hold]
  · obtain ⟨hlast, -, -, hyoung⟩ := hover
    rcases (h.selected_iff hm).mp hsel with hold | ⟨-, k, hk, hlt⟩
    · rw [hyoung] at hold
      cases hold
    · exact absurd (hlast k hk) (not_le.mpr hlt)
  · obtain ⟨c, hc, rfl⟩ := (planEviction_exact h.wholeStream (by
      rw [List.length_map, (perm_oldest st name).length_eq]
      exact h.room)).ofStream q hq
    obtain ⟨m, hm, rfl⟩ := List.mem_map.mp hc
    exact ⟨m, (perm_oldest st name).mem_iff.mp hm, rfl⟩

/-- A stream with three messages of three, four and nine bytes. -/
def unevenLife : List (ℤ × Request) :=
  (1, aCreate) ::
    [3, 4, 9].map fun n : ℕ => ((n : ℤ), .publish aStream { subject := str "a", body := List.replicate n 0 })

/-- Under a limit of eight bytes all three are at risk. The planner takes the two older ones: the newest is too large by
itself, and kept. -/
theorem measureUsage_eq_plan_three :
    let st := (playState unevenLife).store
    let next := { defaultConfig aStream with maxBytes := 8 }
    let stats : StatsRow := ⟨aStream, 3, 16, 0, 0⟩
    (measureUsage st stats aStream next 100).atRiskMsgs = 3 ∧
    (st.wholePlan aStream next stats 100 3).seqs = [1, 2] ∧
    ∀ m, m ∈ st.riskedBy aStream next 100 ↔ m ∈ st.messagesOf aStream ∧
      (m.seq ∈ (st.wholePlan aStream next stats 100 3).seqs ∨ st.Oversized aStream next 100 m) := by
  have horderly : (playState unevenLife).store.Orderly aStream ⟨aStream, 3, 16, 0, 0⟩ 3 :=
    (Store.orderly_iff ..).mpr (by decide +kernel)
  exact ⟨by decide +kernel, by decide +kernel, (measureUsage_eq_plan horderly _ _).2.1⟩

end Estimate

end Messq

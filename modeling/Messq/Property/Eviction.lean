import Messq.Property.Front
import Messq.Property.Settle

/-! # What a retention sweep takes

The planner walks over the candidates of a stream, oldest first, with three limits in view and the pinned messages
passed over. `Evicting` is that walk as a relation between what is left of the stream, the candidates still to come and
what is taken of them; each property of a plan is an induction over it. Over a whole stream the plan is exact
(`planEviction_exact`). A sweep shows the planner only the oldest messages of a stream, so it takes nothing when none of
these can be taken (`retention_progress_iff`). -/

namespace Messq

open Lib Relation

variable {c : Candidate} {ts ts₁ ts₂ : List Candidate} {batch : ℕ}

/-! ## The walk -/

section Walk

variable {v : RetentionView} {left : ℤ × ℤ} {room : ℕ} {cs : List Candidate}

/-- The age limit asks for the candidate. -/
def RetentionView.aged (v : RetentionView) (c : Candidate) : Bool :=
  v.maxAgeMs > 0 ∧ c.publishedAt < v.nowMs - v.maxAgeMs

/-- The count or the byte limit is exceeded when `left` messages and bytes are there. -/
def RetentionView.exceeded (v : RetentionView) (left : ℤ × ℤ) : Bool := stillViolating left.1 left.2 v

/-- The count pass still wants this many messages. -/
def RetentionView.excess (v : RetentionView) (left : ℤ × ℤ) : ℤ :=
  if v.maxMsgs > 0 ∧ left.1 > v.maxMsgs then left.1 - v.maxMsgs else 0

/-- The byte pass still wants this many bytes. -/
def RetentionView.need (v : RetentionView) (left : ℤ × ℤ) : ℤ :=
  if v.maxBytes > 0 ∧ left.2 > v.maxBytes then left.2 - v.maxBytes else 0

theorem exceeded_iff : v.exceeded left = true ↔ v.excess left > 0 ∨ v.need left > 0 := by
  rw [RetentionView.exceeded, stillViolating, decide_eq_true_iff, RetentionView.excess, RetentionView.need]
  split <;> split <;> omega

/-- Less of the stream exceeds no more limits. -/
theorem exceeded_mono {less : ℤ × ℤ} (h₁ : less.1 ≤ left.1) (h₂ : less.2 ≤ left.2) (h : v.exceeded left = false) :
    v.exceeded less = false := by
  simp only [RetentionView.exceeded, stillViolating, decide_eq_false_iff_not] at h ⊢
  omega

/-- The walk over the candidates `cs` when `left` messages and bytes of the stream are there and `room` more may be
taken: what it takes. -/
inductive Evicting (v : RetentionView) : ℕ → ℤ × ℤ → List Candidate → List Candidate → Prop
  | full (left : ℤ × ℤ) (cs : List Candidate) : Evicting v 0 left cs []
  | done (room : ℕ) (left : ℤ × ℤ) : Evicting v room left [] []
  | skip {room : ℕ} {left : ℤ × ℤ} {c : Candidate} {cs ts : List Candidate} : v.aged c = false →
      v.exceeded left = false →
      Evicting v room left cs ts → Evicting v room left (c :: cs) ts
  | block {room : ℕ} {left : ℤ × ℤ} {c : Candidate} {cs ts : List Candidate} : c.hasDelivery = true →
      Evicting v room left cs ts → Evicting v room left (c :: cs) ts
  | stop (room : ℕ) {left : ℤ × ℤ} {c : Candidate} (cs : List Candidate) : c.hasDelivery = false → v.aged c = false →
      v.exceeded left = true → left.1 ≤ 1 → Evicting v room left (c :: cs) []
  | take {room : ℕ} {left : ℤ × ℤ} {c : Candidate} {cs ts : List Candidate} : c.hasDelivery = false →
      (v.aged c = false → v.exceeded left = true ∧ 1 < left.1) →
      Evicting v room (left - (1, c.size)) cs ts → Evicting v (room + 1) left (c :: cs) (c :: ts)

theorem excess_take (c : Candidate) :
    (if v.excess left > 0 then v.excess left - 1 else v.excess left) = v.excess (left - (1, c.size)) := by
  simp only [RetentionView.excess, Prod.fst_sub]
  split_ifs <;> omega

theorem need_take (hc : 0 ≤ c.size) : max (v.need left - c.size) 0 = v.need (left - (1, c.size)) := by
  simp only [RetentionView.need, Prod.snd_sub]
  split_ifs <;> omega

/-- **Walk.** The quotas of the loop are what the limits still ask for, and the loop is the walk. -/
theorem evicting_evictFrom (p : EvictionPlan) (hsize : ∀ c ∈ cs, 0 ≤ c.size) (hleft : left.1 = v.msgs - p.seqs.length)
    (hroom : p.seqs.length + (room + 1) = batch) :
    ∃ ts, Evicting v (room + 1) left cs ts ∧
      (evictFrom v batch (v.excess left) (v.need left) p cs).seqs = p.seqs ++ ts.map Candidate.seq := by
  induction cs generalizing left room p with
  | nil => exact ⟨[], .done _ _, (List.append_nil _).symm⟩
  | cons c cs ih =>
    obtain ⟨hc, hcs⟩ := List.forall_mem_cons.mp hsize
    have hwant : (!v.aged c) = true ∧ ¬ v.excess left > 0 ∧ ¬ v.need left > 0 ↔
        v.aged c = false ∧ v.exceeded left = false := by
      rw [← not_or, ← exceeded_iff, Bool.not_eq_true, Bool.not_eq_true']
    simp only [evictFrom]
    split
    · rename_i hskip
      obtain ⟨hage, hidle⟩ := hwant.mp hskip
      obtain ⟨ts, hw, hseqs⟩ := ih p hcs hleft hroom
      exact ⟨ts, .skip hage hidle hw, hseqs⟩
    rename_i hwanted
    split
    · rename_i hpin
      obtain ⟨ts, hw, hseqs⟩ := ih (p.block c) hcs hleft hroom
      exact ⟨ts, .block hpin hw, hseqs⟩
    rename_i hpin
    rw [Bool.not_eq_true] at hpin
    have hpress : v.aged c = false → v.exceeded left = true := fun hage => by
      rw [← Bool.not_eq_false]
      exact fun hidle => hwanted (hwant.mpr ⟨hage, hidle⟩)
    split
    · rename_i hkeep
      have hage : v.aged c = false := (Bool.not_eq_true' _).mp hkeep.1
      exact ⟨[], .stop _ _ hpin hage (hpress hage) (by omega), (List.append_nil _).symm⟩
    rename_i hkeep
    have hlen : (p.take c).seqs.length = p.seqs.length + 1 := List.length_append
    have htake : v.aged c = false → v.exceeded left = true ∧ 1 < left.1 := fun hage => by
      have hmany := mt (And.intro ((Bool.not_eq_true' _).mpr hage)) hkeep
      exact ⟨hpress hage, by omega⟩
    split
    · -- the batch is full: no room is left
      obtain rfl : room = 0 := by omega
      exact ⟨[c], .take hpin htake (.full _ _), rfl⟩
    · obtain ⟨room, rfl⟩ : ∃ k, room = k + 1 := ⟨room - 1, by omega⟩
      rw [excess_take c, need_take hc]
      have hleft' : (left - (1, c.size)).1 = v.msgs - (p.take c).seqs.length := by
        rw [Prod.fst_sub, hlen]
        push_cast
        omega
      have hroom' : (p.take c).seqs.length + (room + 1) = batch := by omega
      obtain ⟨ts, hw, hseqs⟩ := ih (p.take c) hcs hleft' hroom'
      exact ⟨c :: ts, .take hpin htake hw, by rw [hseqs]; simp [EvictionPlan.take]⟩

theorem evicting_planEviction (batch : ℕ) (hsize : ∀ c ∈ cs, 0 ≤ c.size) :
    ∃ ts, Evicting v batch (v.msgs, v.bytes) cs ts ∧ (planEviction cs v batch).seqs = ts.map Candidate.seq := by
  unfold planEviction
  cases batch with
  | zero => exact ⟨[], .full _ _, rfl⟩
  | succ room => exact evicting_evictFrom {} hsize (by simp) (Nat.zero_add _)

/-! ## What is taken -/

theorem Evicting.sublist (h : Evicting v room left cs ts) : ts.Sublist cs := by
  induction h with
  | full | stop => exact List.nil_sublist _
  | done => exact List.Sublist.slnil
  | skip _ _ _ ih => exact ih.cons _
  | block _ _ ih => exact ih.cons _
  | take _ _ _ ih => exact ih.cons_cons _

theorem Evicting.unpinned (h : Evicting v room left cs ts) : ∀ c ∈ ts, c.hasDelivery = false := by
  induction h with
  | full | done | stop => exact fun _ hc => absurd hc List.not_mem_nil
  | skip _ _ _ ih => exact ih
  | block _ _ ih => exact ih
  | take hpin _ _ ih => exact List.forall_mem_cons.mpr ⟨hpin, ih⟩

/-- What is younger than a candidate that is not too old is not too old. -/
theorem aged_of_le {d : Candidate} (h : c.publishedAt ≤ d.publishedAt) (hc : v.aged c = false) : v.aged d = false := by
  simp only [RetentionView.aged, decide_eq_false_iff_not] at hc ⊢
  omega

/-- Everything too old is taken, unless it is pinned. -/
theorem Evicting.aged (h : Evicting v room left cs ts) (hroom : cs.length ≤ room)
    (hsort : cs.Pairwise fun c d => c.publishedAt ≤ d.publishedAt) :
    ∀ c ∈ cs, v.aged c = true → c.hasDelivery = false → c ∈ ts := by
  induction h with
  | full left cs =>
    obtain rfl := List.length_eq_zero_iff.mp (Nat.le_zero.mp hroom)
    exact fun _ hc => absurd hc List.not_mem_nil
  | done => exact fun _ hc => absurd hc List.not_mem_nil
  | skip hage _ _ ih =>
    intro d hd hold hpin
    rcases List.mem_cons.mp hd with rfl | hd
    · rw [hage] at hold
      cases hold
    · exact ih (Nat.le_of_succ_le hroom) hsort.of_cons d hd hold hpin
  | block hpin _ ih =>
    intro d hd hold hfree
    rcases List.mem_cons.mp hd with rfl | hd
    · rw [hpin] at hfree
      cases hfree
    · exact ih (Nat.le_of_succ_le hroom) hsort.of_cons d hd hold hfree
  | stop _ _ _ hage =>
    -- the walk stops at a candidate that is not too old, so nothing after it is
    intro d hd hold
    have hyoung : v.aged d = false := by
      rcases List.mem_cons.mp hd with rfl | hd
      · exact hage
      · exact aged_of_le (List.rel_of_pairwise_cons hsort hd) hage
    rw [hyoung] at hold
    cases hold
  | take _ _ _ ih =>
    intro d hd hold hpin
    rcases List.mem_cons.mp hd with rfl | hd
    · exact List.mem_cons_self
    · exact List.mem_cons_of_mem _ (ih (Nat.le_of_succ_le_succ hroom) hsort.of_cons d hd hold hpin)

theorem sub_tally_cons (c : Candidate) :
    left - (1, c.size) - Lib.tally Candidate.size ts = left - Lib.tally Candidate.size (c :: ts) := by
  rw [tally_cons, sub_sub]

/-- The limits are met in the end, or one message is left, or everything unpinned is gone. -/
theorem Evicting.enough (h : Evicting v room left cs ts) (hroom : cs.length ≤ room) (hsize : ∀ c ∈ cs, 0 ≤ c.size) :
    v.exceeded (left - Lib.tally Candidate.size ts) = false ∨ (left - Lib.tally Candidate.size ts).1 ≤ 1 ∨
      ∀ c ∈ cs, c.hasDelivery = false → c ∈ ts := by
  induction h with
  | full left cs =>
    obtain rfl := List.length_eq_zero_iff.mp (Nat.le_zero.mp hroom)
    exact .inr (.inr fun _ hc => absurd hc List.not_mem_nil)
  | done => exact .inr (.inr fun _ hc => absurd hc List.not_mem_nil)
  | @skip _ left c cs ts _ hidle hw _ =>
    obtain ⟨h₁, h₂⟩ := tally_nonneg Candidate.size fun c hc => hsize c (List.mem_cons_of_mem _ (hw.sublist.subset hc))
    refine .inl (exceeded_mono ?_ ?_ hidle)
    · rw [Prod.fst_sub]
      omega
    · rw [Prod.snd_sub]
      omega
  | block hpin _ ih =>
    refine (ih (Nat.le_of_succ_le hroom) (List.forall_mem_cons.mp hsize).2).imp_right (Or.imp_right fun hall => ?_)
    intro d hd hfree
    rcases List.mem_cons.mp hd with rfl | hd
    · rw [hpin] at hfree
      cases hfree
    · exact hall d hd hfree
  | stop _ _ _ _ _ hone =>
    refine .inr (.inl ?_)
    rw [tally_nil, sub_zero]
    exact hone
  | @take _ left c _ ts _ _ _ ih =>
    rw [← sub_tally_cons]
    refine (ih (Nat.le_of_succ_le_succ hroom) (List.forall_mem_cons.mp hsize).2).imp_right (Or.imp_right fun hall => ?_)
    intro d hd hfree
    rcases List.mem_cons.mp hd with rfl | hd
    · exact List.mem_cons_self
    · exact List.mem_cons_of_mem _ (hall d hd hfree)

/-- Beyond what is too old, a message is taken only while a limit is exceeded by what is left. -/
theorem Evicting.pressed (h : Evicting v room left cs ts) (hts : ts = ts₁ ++ c :: ts₂) (hage : v.aged c = false) :
    v.exceeded (left - Lib.tally Candidate.size ts₁) = true := by
  induction h generalizing ts₁ with
  | full | done | stop => cases ts₁ <;> cases hts
  | skip _ _ _ ih => exact ih hts
  | block _ _ ih => exact ih hts
  | take _ hpress _ ih =>
    cases ts₁ with
    | nil =>
      cases hts
      rw [tally_nil, sub_zero]
      exact (hpress hage).1
    | cons d ts₁ =>
      cases hts
      rw [← sub_tally_cons]
      exact ih rfl

/-- Once a message is taken that is not too old, one is left. -/
theorem Evicting.keeps (h : Evicting v room left cs ts) (hsort : cs.Pairwise fun c d => c.publishedAt ≤ d.publishedAt)
    (hc : c ∈ ts) (hage : v.aged c = false) : 1 ≤ (left - Lib.tally Candidate.size ts).1 := by
  induction h generalizing c with
  | full | done | stop => cases hc
  | skip _ _ _ ih => exact ih hsort.of_cons hc hage
  | block _ _ ih => exact ih hsort.of_cons hc hage
  | @take _ left d cs ts _ hpress hw ih =>
    rw [← sub_tally_cons]
    rcases List.mem_cons.mp hc with rfl | hc
    · cases ts with
      | nil =>
        rw [tally_nil, sub_zero, Prod.fst_sub]
        have := (hpress hage).2
        omega
      | cons e ts =>
        -- the next one taken is younger, and not too old either
        have hle := List.rel_of_pairwise_cons hsort (hw.sublist.subset List.mem_cons_self)
        exact ih hsort.of_cons List.mem_cons_self (aged_of_le hle hage)
    · exact ih hsort.of_cons hc hage

/-- Something is taken exactly if the first candidate that can be taken and is asked for is too old or not the last. -/
theorem Evicting.ne_nil_iff (h : Evicting v room left cs ts) (hroom : 0 < room) :
    ts ≠ [] ↔ (cs.find? fun c => !c.hasDelivery && (v.aged c || v.exceeded left)).any
      (fun c => v.aged c || decide (1 < left.1)) = true := by
  induction h with
  | full => cases hroom
  | done => simp
  | skip hage hidle _ ih => simpa [hage, hidle] using ih hroom
  | block hpin _ ih => simpa [hpin] using ih hroom
  | stop _ _ hpin hage hpress hone => simp [hpin, hage, hpress, hone]
  | @take _ left c _ _ hpin hpress _ _ =>
    cases hage : v.aged c with
    | true => simp [hpin, hage]
    | false => simp [hpin, hpress hage]

end Walk

/-! ## Whole streams -/

section Whole

variable {v : RetentionView} {cands : List Candidate}

/-- The candidates are a whole stream, oldest first, and the statistics are theirs. -/
structure WholeStream (v : RetentionView) (cands : List Candidate) : Prop where
  ascending : cands.Pairwise fun c d => c.seq < d.seq
  aging : cands.Pairwise fun c d => c.publishedAt ≤ d.publishedAt
  /-- A size is a number of bytes. -/
  weighed : ∀ c ∈ cands, 0 ≤ c.size
  counted : (v.msgs, v.bytes) = Lib.tally Candidate.size cands

/-- The candidates that a selection leaves. -/
def EvictionPlan.kept (p : EvictionPlan) (cands : List Candidate) : List Candidate :=
  cands.filter fun c => !p.seqs.contains c.seq

/-- The candidates that are left when the selection comes to the number `q`. -/
def EvictionPlan.keptAt (p : EvictionPlan) (q : ℤ) (cands : List Candidate) : List Candidate :=
  cands.filter fun c => !(p.seqs.contains c.seq && decide (c.seq < q))

/-- The plan takes what the limits ask for, and no more. -/
structure ExactPlan (v : RetentionView) (cands : List Candidate) (p : EvictionPlan) : Prop where
  ofStream : ∀ q ∈ p.seqs, ∃ c ∈ cands, c.seq = q
  unpinned : ∀ c ∈ cands, c.seq ∈ p.seqs → c.hasDelivery = false
  aged : ∀ c ∈ cands, v.aged c = true → c.hasDelivery = false → c.seq ∈ p.seqs
  enough : v.exceeded (Lib.tally Candidate.size (p.kept cands)) = false ∨ (p.kept cands).length ≤ 1 ∨
    ∀ c ∈ p.kept cands, c.hasDelivery = true
  /-- Beyond the age rule nothing is selected once the limits are met. -/
  frugal : ∀ c ∈ cands, c.seq ∈ p.seqs → v.aged c = false →
    v.exceeded (Lib.tally Candidate.size (p.keptAt c.seq cands)) = true
  /-- Beyond the age rule the last message is not selected. -/
  keeps : ∀ c ∈ cands, c.seq ∈ p.seqs → v.aged c = false → p.kept cands ≠ []

theorem WholeStream.nodup (h : WholeStream v cands) : (cands.map Candidate.seq).Nodup :=
  List.pairwise_map.mpr (h.ascending.imp ne_of_lt)

section Selection

variable {p : EvictionPlan}

/-- The selection of a plan, as candidates. -/
theorem WholeStream.mem_iff (h : WholeStream v cands) (hsub : ts.Sublist cands) (hp : p.seqs = ts.map Candidate.seq)
    (hc : c ∈ cands) : c.seq ∈ p.seqs ↔ c ∈ ts := by
  rw [hp]
  refine ⟨fun hmem => ?_, List.mem_map_of_mem⟩
  obtain ⟨d, hd, he⟩ := List.mem_map.mp hmem
  rwa [← List.inj_on_of_nodup_map h.nodup (hsub.subset hd) hc he]

/-- What is left of the statistics is the tally of what is kept. -/
theorem WholeStream.tally_kept (h : WholeStream v cands) (hsub : ts.Sublist cands)
    (hp : p.seqs = ts.map Candidate.seq) :
    Lib.tally Candidate.size (p.kept cands) = (v.msgs, v.bytes) - Lib.tally Candidate.size ts := by
  have hperm : (cands.filter fun c => p.seqs.contains c.seq).Perm ts := by
    have hnodup := h.nodup.of_map
    refine (List.perm_ext_iff_of_nodup (hnodup.filter _) (hsub.nodup hnodup)).mpr fun c => ?_
    rw [List.mem_filter, List.contains_iff_mem]
    refine ⟨fun hc => (h.mem_iff hsub hp hc.1).mp hc.2, fun hc => ?_⟩
    exact ⟨hsub.subset hc, (h.mem_iff hsub hp (hsub.subset hc)).mpr hc⟩
  rw [h.counted, ← tally_split Candidate.size (fun c => p.seqs.contains c.seq) cands, tally_perm _ hperm,
    add_sub_cancel_left]
  rfl

theorem WholeStream.tally_keptAt (h : WholeStream v cands) (hsub : (ts₁ ++ c :: ts₂).Sublist cands)
    (hp : p.seqs = (ts₁ ++ c :: ts₂).map Candidate.seq) :
    Lib.tally Candidate.size (p.keptAt c.seq cands) = (v.msgs, v.bytes) - Lib.tally Candidate.size ts₁ := by
  have hsort := h.ascending.sublist hsub
  obtain ⟨-, hafter, hbefore⟩ := List.pairwise_append.mp hsort
  have hperm : (cands.filter fun d => p.seqs.contains d.seq && decide (d.seq < c.seq)).Perm ts₁ := by
    have hnodup := h.nodup.of_map
    refine (List.perm_ext_iff_of_nodup (hnodup.filter _) (((List.sublist_append_left _ _).trans hsub).nodup hnodup)).mpr
      fun d => ?_
    rw [List.mem_filter, Bool.and_eq_true, List.contains_iff_mem, decide_eq_true_iff]
    constructor
    · rintro ⟨hd, hmem, hlt⟩
      rcases List.mem_append.mp ((h.mem_iff hsub hp hd).mp hmem) with hd | hd
      · exact hd
      rcases List.mem_cons.mp hd with rfl | hd
      · exact absurd hlt (lt_irrefl _)
      · exact absurd hlt (not_lt.mpr (List.rel_of_pairwise_cons hafter hd).le)
    · intro hd
      have hin := hsub.subset (List.mem_append_left _ hd)
      exact ⟨hin, (h.mem_iff hsub hp hin).mpr (List.mem_append_left _ hd), hbefore d hd c List.mem_cons_self⟩
  rw [h.counted, ← tally_split Candidate.size (fun d => p.seqs.contains d.seq && decide (d.seq < c.seq)) cands,
    tally_perm _ hperm, add_sub_cancel_left]
  rfl

end Selection

/-- **Planner.** The plan for a whole stream is exact, when the batch has room for it. -/
theorem planEviction_exact (h : WholeStream v cands) (hb : cands.length ≤ batch) :
    ExactPlan v cands (planEviction cands v batch) := by
  obtain ⟨ts, hw, hp⟩ := evicting_planEviction (v := v) batch h.weighed
  have hsub := hw.sublist
  have hmem {c : Candidate} (hc : c ∈ cands) : c.seq ∈ (planEviction cands v batch).seqs ↔ c ∈ ts :=
    h.mem_iff hsub hp hc
  have hkept := h.tally_kept hsub hp
  refine ⟨?_, ?_, ?_, ?_, ?_, ?_⟩
  · intro q hq
    rw [hp] at hq
    obtain ⟨c, hc, rfl⟩ := List.mem_map.mp hq
    exact ⟨c, hsub.subset hc, rfl⟩
  · exact fun c hc hsel => hw.unpinned c ((hmem hc).mp hsel)
  · exact fun c hc hage hpin => (hmem hc).mpr (hw.aged hb h.aging c hc hage hpin)
  · rw [hkept]
    refine (hw.enough hb h.weighed).imp_right (Or.imp (fun hone => ?_) fun hall => ?_)
    · have hlen : ((planEviction cands v batch).kept cands).length =
          ((v.msgs, v.bytes) - Lib.tally Candidate.size ts).1 :=
        congrArg Prod.fst hkept
      omega
    · intro c hc
      obtain ⟨hc, hleft⟩ := List.mem_filter.mp hc
      rw [Bool.not_eq_true', List.contains_eq_mem, decide_eq_false_iff_not, hmem hc] at hleft
      rw [← Bool.not_eq_false]
      exact fun hfree => hleft (hall c hc hfree)
  · intro c hc hsel hage
    obtain ⟨ts₁, ts₂, rfl⟩ := List.append_of_mem ((hmem hc).mp hsel)
    rw [h.tally_keptAt hsub hp]
    exact hw.pressed rfl hage
  · intro c hc hsel hage hnil
    have hone := hw.keeps h.aging ((hmem hc).mp hsel) hage
    rw [← hkept, hnil] at hone
    exact absurd hone (by decide)

/-- Five messages, two of them pinned and two too old, under a count limit of three. -/
theorem planEviction_exact_five :
    let cands : List Candidate :=
      [⟨1, 3, 50, true⟩, ⟨2, 3, 60, false⟩, ⟨3, 3, 95, true⟩, ⟨4, 3, 96, false⟩, ⟨5, 3, 97, false⟩]
    let v : RetentionView := ⟨3, 0, 10, 5, 15, 100⟩
    (planEviction cands v 5).seqs = [2, 4] ∧ ExactPlan v cands (planEviction cands v 5) :=
  ⟨by decide, planEviction_exact ⟨by decide, by decide, by decide, by decide⟩ (by decide)⟩

end Whole

/-! ## Sweeps -/

section Sweep

variable {env : Env} {window : ℕ} {st st' : Store} {row : StreamRow} {nowMs : ℤ}

/-- The age limit of a stream asks for a message. -/
def StreamRow.expires (row : StreamRow) (nowMs : ℤ) (m : MessageRow) : Bool :=
  row.maxAgeMs > 0 ∧ m.publishedAt < nowMs - row.maxAgeMs

/-- A stream with `counts` messages and bytes exceeds its count or its byte limit. -/
def StreamRow.exceeded (row : StreamRow) (counts : ℤ × ℤ) : Bool :=
  (row.maxMsgs > 0 ∧ counts.1 > row.maxMsgs) ∨ (row.maxBytes > 0 ∧ counts.2 > row.maxBytes)

/-- The limits of a stream with `counts` messages and bytes ask to remove a message that no delivery row pins. -/
def Store.asks (st : Store) (row : StreamRow) (counts : ℤ × ℤ) (nowMs : ℤ) (m : MessageRow) : Bool :=
  !st.pinned row.name m.seq && (row.expires nowMs m || row.exceeded counts)

/-- The stream holds a message that its limits ask to remove, and more than that one. -/
structure Store.Overdue (st : Store) (row : StreamRow) (nowMs : ℤ) : Prop where
  several : 1 < (st.messagesOf row.name).length
  asked : ∃ m ∈ st.messagesOf row.name, st.asks row (st.tally row.name) nowMs m = true

/-- A message that its limits ask to remove stands among the `window` oldest of the stream, and the first such message
is too old or, as the stream's counters have it, not the last one. -/
def Store.reaches (st : Store) (row : StreamRow) (nowMs : ℤ) (window : ℕ) : Bool :=
  (((st.oldest row.name).take window).find? (st.asks row (st.counters row.name) nowMs)).any fun m =>
    row.expires nowMs m || decide (1 < (st.counters row.name).1)

theorem succeeds_when {α : Type} {c : Prop} [Decidable c] {x : Tx Unit} {k : Unit → Tx α} (hx : ∀ st, Succeeds x st)
    (hk : ∀ u st, Succeeds (k u) st) (st : Store) : Succeeds (if c then x >>= k else k ()) st := by
  split
  · exact (hx st).bind fun u st₁ _ => hk u st₁
  · exact hk () st

theorem succeeds_applyEviction (view : RetentionView) (plan : EvictionPlan) (res : RetentionResult) (st : Store) :
    Succeeds (applyEviction env row view batch plan res) st := by
  unfold applyEviction
  refine Succeeds.bind ((succeeds_get st).bind fun _ st₁ _ => (succeeds_set _ st₁).bind fun _ _ _ => succeeds_pure _ _)
    fun p st₁ _ => ?_
  refine succeeds_when (fun st => succeeds_modify _ st) (fun _ st => ?_) st₁
  refine succeeds_when (succeeds_commitEvent _) (fun _ st => ?_) st
  dsimp only
  split
  · exact (succeeds_get st).bind fun _ st₁ _ => (succeeds_commitEvents _ st₁).bind fun _ _ _ => succeeds_pure _ _
  · exact succeeds_pure _ _

theorem succeeds_retainStreams (ps : List (StreamRow × Option StatsRow)) (res : RetentionResult) (st : Store) :
    Succeeds (retainStreams env batch ps res) st := by
  induction ps generalizing res st with
  | nil => exact succeeds_pure _ _
  | cons p ps ih =>
    refine Succeeds.bind ((succeeds_get st).bind fun st₁ st₂ _ => ?_) fun res st₁ _ => ih res st₁
    split
    · exact succeeds_pure _ _
    · exact succeeds_applyEviction _ _ _ _

theorem succeeds_retention (env : Env) (batch : ℕ) (st : Store) : Succeeds (retention env batch) st :=
  (succeeds_get st).bind fun _ st₁ _ => succeeds_retainStreams _ _ st₁

/-- The plan of a stream under limits, read on its messages. -/
theorem plan_ne_nil_iff (hw : st.Weighed) (hl : row.retention = .limits) (hb : 0 < batch) :
    (∃ m ∈ st.messagesOf row.name, st.evicts row (st.counters row.name) nowMs batch m = true) ↔
      st.reaches row nowMs (batch * 2 + maxBlameHolders) = true := by
  have hcands : st.retentionCandidates row _ = _ := retentionCandidates_limits hl (batch * 2 + maxBlameHolders)
  have hmem : ∀ c ∈ ((st.oldest row.name).take (batch * 2 + maxBlameHolders)).map (st.candidate row.name),
      ∃ m ∈ st.messagesOf row.name, st.candidate row.name m = c := fun c hc => by
    obtain ⟨m, hm, he⟩ := List.mem_map.mp hc
    exact ⟨m, (perm_oldest st row.name).mem_iff.mp (List.mem_of_mem_take hm), he⟩
  have hsize : ∀ c ∈ ((st.oldest row.name).take (batch * 2 + maxBlameHolders)).map (st.candidate row.name),
      0 ≤ c.size :=
    fun c hc => by
      obtain ⟨m, hm, rfl⟩ := hmem c hc
      exact hw m (mem_messagesOf.mp hm).1
  obtain ⟨ts, hwalk, hseqs⟩ := evicting_planEviction
    (v := ⟨row.maxMsgs, row.maxBytes, row.maxAgeMs, (st.counters row.name).1, (st.counters row.name).2, nowMs⟩)
    batch hsize
  have hplan : st.plan row (st.counters row.name) nowMs batch = ts.map Candidate.seq := by
    rw [Store.plan, hcands]
    simp only [hl]
    exact hseqs
  have hreach : st.reaches row nowMs (batch * 2 + maxBlameHolders) = true ↔ ts ≠ [] := by
    rw [hwalk.ne_nil_iff hb, List.find?_map, Option.any_map]
    rfl
  rw [hreach]
  constructor
  · rintro ⟨m, -, hev⟩ rfl
    obtain ⟨-, hin, -⟩ := evictable_iff.mp hev
    rw [hplan] at hin
    cases hin
  · intro hne
    obtain ⟨c, hc⟩ := List.exists_mem_of_ne_nil ts hne
    obtain ⟨m, hm, rfl⟩ := hmem c (hwalk.sublist.subset hc)
    refine ⟨m, hm, evictable_iff.mpr ⟨(mem_messagesOf.mp hm).2, ?_, hwalk.unpinned _ hc⟩⟩
    rw [hplan]
    exact List.mem_map_of_mem hc

theorem retention_takes_iff (hw : st.Weighed) (hrow : row ∈ st.streams) (hl : row.retention = .limits) (hb : 0 < batch)
    {r : RetentionResult} (h : retention env batch st = .ok (r, st')) :
    (∃ m ∈ st.messagesOf row.name, m ∉ st'.messagesOf row.name) ↔
      st.reaches row env.nowMs (batch * 2 + maxBlameHolders) = true := by
  rw [← plan_ne_nil_iff hw hl hb, retention_messagesOf h, Table.find?_of_mem hrow]
  refine exists_congr fun m => and_congr_right fun hm => ?_
  simp [hm]

theorem limitOr_pos (n : ℤ) {dflt : ℕ} (h : 0 < dflt) : 0 < limitOr n dflt := by
  unfold limitOr
  split <;> omega

/-- **Progress.** A sweep takes a message of each stream under limits that holds one they ask to remove, and more than
that one, exactly if such a message is in its reach: among the `2 * batch + 64` oldest of the stream. -/
theorem retention_progress_iff {h : List Visit} {b : Broker} (hr : Runs h b) (env : Env) (n : ℤ) {row : StreamRow}
    (hrow : row ∈ b.store.streams) (hl : row.retention = .limits) :
    ∃ r st', retention env (limitOr n defaultRetentionBatch) b.store = .ok (r, st') ∧
      ((b.store.Overdue row env.nowMs → ∃ m ∈ b.store.messagesOf row.name, m ∉ st'.messagesOf row.name) ↔
        (b.store.Overdue row env.nowMs →
          b.store.reaches row env.nowMs (limitOr n defaultRetentionBatch * 2 + maxBlameHolders) = true)) := by
  obtain ⟨r, st', hrun⟩ := succeeds_retention env (limitOr n defaultRetentionBatch) b.store
  have htakes := retention_takes_iff hr.sized.weighed hrow hl (limitOr_pos n (by decide)) hrun
  exact ⟨r, st', hrun, imp_congr_right fun _ => htakes⟩

/-- A stream limited to one message, with a consumer that holds the `held` oldest of its `msgs` messages. -/
def heldFront (held msgs : ℕ) : List (ℤ × Request) := [
  (1, .createStream { defaultConfig aStream with maxMsgs := 1 } []),
  (2, .createConsumer aStream { defaultConsumerConfig aConsumer with maxAckPending := held } .first []),
  (3, .publishBatch aStream (List.replicate msgs { subject := str "a", body := [] })),
  (4, aFetch 1)]

/-- One held message before three free ones is passed over. -/
theorem retention_passes_held : ∃ row ∈ (playState (heldFront 1 4)).store.streams,
    (playState (heldFront 1 4)).store.Overdue row (Env.atMs 9).nowMs ∧
    ∃ r st', retention (Env.atMs 9) (limitOr 1 defaultRetentionBatch) (playState (heldFront 1 4)).store = .ok (r, st') ∧
      ∃ m ∈ (playState (heldFront 1 4)).store.messagesOf row.name, m ∉ st'.messagesOf row.name := by
  have hstate : ∃ row ∈ (playState (heldFront 1 4)).store.streams.rows, row.retention = .limits ∧
      1 < ((playState (heldFront 1 4)).store.messagesOf row.name).length ∧
      (∃ m ∈ (playState (heldFront 1 4)).store.messagesOf row.name, (playState (heldFront 1 4)).store.asks row
        ((playState (heldFront 1 4)).store.tally row.name) (Env.atMs 9).nowMs m = true) ∧
      (playState (heldFront 1 4)).store.reaches row (Env.atMs 9).nowMs
        (limitOr 1 defaultRetentionBatch * 2 + maxBlameHolders) = true := by decide +kernel
  have hruns := runs_play (heldFront 1 4)
  generalize playState (heldFront 1 4) = b at *
  obtain ⟨row, hrow, hl, hmany, hasked, hreach⟩ := hstate
  obtain ⟨r, st', hrun, hiff⟩ := retention_progress_iff hruns (Env.atMs 9) 1 hrow hl
  exact ⟨row, hrow, ⟨hmany, hasked⟩, r, st', hrun, hiff.mpr (fun _ => hreach) ⟨hmany, hasked⟩⟩

/-- The messages of the sample run with 66 of them held, and the delivery rows. -/
theorem heldFront_rows :
    (playState (heldFront 66 68)).store.deliveries.rows.map DeliveryRow.key =
      (List.range 66).map (fun i : ℕ => (aStream, aConsumer, (i + 1 : ℤ))) ∧
    ((playState (heldFront 66 68)).store.oldest aStream).map MessageRow.seq =
      (List.range 68).map (fun i : ℕ => (i + 1 : ℤ)) ∧
    (playState (heldFront 66 68)).store.streams.rows.map (fun row => (row.name, row.retention, row.maxMsgs)) =
      [(aStream, .limits, 1)] := by decide +kernel

theorem heldFront_pinned (q : ℤ) :
    (playState (heldFront 66 68)).store.pinned aStream q = true ↔ 1 ≤ q ∧ q ≤ 66 := by
  have hkey : (playState (heldFront 66 68)).store.pinned aStream q = true ↔
      ∃ k ∈ (playState (heldFront 66 68)).store.deliveries.rows.map DeliveryRow.key, k.1 = aStream ∧ k.2.2 = q := by
    simp [Store.pinned, DeliveryRow.key]
  rw [hkey, heldFront_rows.1]
  constructor
  · rintro ⟨k, hk, -, hq⟩
    obtain ⟨i, hi, rfl⟩ := List.mem_map.mp hk
    have hi := List.mem_range.mp hi
    have hq : (i + 1 : ℤ) = q := hq
    exact ⟨by omega, by omega⟩
  · rintro ⟨h₁, h₂⟩
    refine ⟨_, List.mem_map_of_mem (List.mem_range.mpr (show (q - 1).toNat < 66 by omega)), rfl, ?_⟩
    show ((q - 1).toNat + 1 : ℤ) = q
    omega

/-- Of 68 messages, 67 too many, the 66 oldest are held and two are free: a sweep of batch 1 takes nothing. -/
theorem retention_stuck : Runs (play (heldFront 66 68)) (playState (heldFront 66 68)) ∧
    ∃ row ∈ (playState (heldFront 66 68)).store.streams, row.retention = .limits ∧
    (playState (heldFront 66 68)).store.Overdue row (Env.atMs 9).nowMs ∧
    ∃ r st', retention (Env.atMs 9) 1 (playState (heldFront 66 68)).store = .ok (r, st') ∧
      ¬ ∃ m ∈ (playState (heldFront 66 68)).store.messagesOf row.name, m ∉ st'.messagesOf row.name := by
  obtain ⟨-, hseqs, hrows⟩ := heldFront_rows
  obtain ⟨r, st', hrun⟩ := succeeds_retention (Env.atMs 9) 1 (playState (heldFront 66 68)).store
  have hsized := (runs_play (heldFront 66 68)).sized.weighed
  have hpinned := heldFront_pinned
  generalize (playState (heldFront 66 68)).store = st at *
  obtain ⟨row, hrow, hr⟩ : ∃ row ∈ st.streams.rows,
      (row.name, row.retention, row.maxMsgs) = (aStream, .limits, 1) := by
    rw [← List.mem_map, hrows]
    exact List.mem_singleton_self _
  simp only [Prod.mk.injEq] at hr
  obtain ⟨hname, hl, hmax⟩ := hr
  have hlen : (st.messagesOf aStream).length = 68 := by
    rw [← (perm_oldest st aStream).length_eq, ← List.length_map (f := MessageRow.seq), hseqs]
    rfl
  have hfree : ∃ m ∈ st.oldest aStream, m.seq = 67 := by
    rw [← List.mem_map, hseqs]
    decide
  have hheld : ∀ m ∈ (st.oldest aStream).take 66, st.pinned aStream m.seq = true := fun m hm => by
    have hseq := List.mem_map_of_mem (f := MessageRow.seq) hm
    rw [List.map_take, hseqs, ← List.map_take, List.take_range] at hseq
    obtain ⟨i, hi, he⟩ := List.mem_map.mp hseq
    have := List.mem_range.mp hi
    exact (hpinned _).mpr ⟨by omega, by omega⟩
  refine ⟨runs_play _, row, hrow, hl, ⟨by rw [hname]; omega, ?_⟩, r, st', hrun, ?_⟩
  · obtain ⟨m, hm, hq⟩ := hfree
    refine ⟨m, by rw [hname]; exact (perm_oldest st _).mem_iff.mp hm, ?_⟩
    have hpin : st.pinned aStream 67 = false := Bool.eq_false_iff.mpr fun h => absurd ((hpinned 67).mp h).2 (by decide)
    have hover : row.exceeded (st.tally aStream) = true := by
      simp [StreamRow.exceeded, Store.tally, Lib.tally, hlen, hmax]
    simp [Store.asks, hname, hq, hpin, hover]
  · rw [retention_takes_iff hsized hrow hl Nat.one_pos hrun, Store.reaches, hname,
      List.find?_eq_none.mpr fun m hm => ?_]
    · exact Bool.false_ne_true
    · simp [Store.asks, hname, hheld m hm]

end Sweep

end Messq

import Messq.Property.Chronicle

/-! # The backlog of a consumer

`consumerBacklog` reports how many messages a consumer has not admitted yet, and whether the number is exact. For
literal filters it counts them; for the filter `>` it reports the distance from the cursor to the head, which is their
number only when no message in between is gone (`backlog_true_iff`); for other filters the distance is an upper
bound. -/

namespace Messq

open Lib Table

/-! ## Stored subjects -/

/-- Every stored message has a well-formed subject. -/
def Store.Subjected (st : Store) : Prop :=
  ∀ m ∈ st.messages, (Subject.segments m.subject).all Subject.validSegment = true

theorem Record.subjected {env : Env} {req : Request} {st st' : Store} (hr : Record env req st st') (h : st.Subjected) :
    st'.Subjected := by
  refine hr.all ?_ ?_ h
  · rintro m' m (rfl | rfl) hm <;> exact hm
  · intro st m hall hw
    cases hw with
    | published hp =>
      obtain ⟨row, set, -, hset, hm⟩ := hp.subject
      exact ((Subject.match_iff hset _).mp hm).valid
    | copied origin ho hc =>
      rw [hc.subject]
      exact hall origin ho

theorem Runs.subjected {h : List Visit} {b : Broker} (r : Runs h b) : b.store.Subjected :=
  Runs.holds (C := fun _ => True) (I := Store.Subjected) (fun _ hm => absurd hm List.not_mem_nil) (fun _ _ h => h)
    (fun _ _ _ _ _ _ _ hcom h => (applyRequest_record rfl hcom.run).subjected h) r fun _ _ => trivial

/-! ## What waits -/

section Backlog

variable {st : Store} {c : ConsumerRow}

/-- The stored messages from the cursor on that the filters of a consumer match. -/
def Store.waiting (st : Store) (c : ConsumerRow) : List MessageRow :=
  (st.messagesOf c.stream).filter fun m => c.wants m.subject && decide (c.cursorSeq ≤ m.seq)

/-- The reported backlog is what waits if it says that it is exact, and not less otherwise. -/
def Store.BacklogTrue (st : Store) (c : ConsumerRow) (next : ℤ) : Prop :=
  match st.consumerBacklog c.stream c.cursorSeq next c.filters with
  | (n, true) => n = (st.waiting c).length
  | (n, false) => ((st.waiting c).length : ℤ) ≤ n

theorem nodup_waiting (st : Store) (c : ConsumerRow) : ((st.waiting c).map MessageRow.seq).Nodup := by
  refine (List.nodup_map_iff_inj_on (st.messages.nodup_select.filter _)).mpr fun a ha b hb he => ?_
  exact seq_inj_messagesOf (List.mem_of_mem_filter ha) (List.mem_of_mem_filter hb) he

theorem mem_waiting {m : MessageRow} : m ∈ st.waiting c ↔
    m ∈ st.messages ∧ m.stream = c.stream ∧ c.wants m.subject = true ∧ c.cursorSeq ≤ m.seq := by
  rw [Store.waiting, List.mem_filter, mem_messagesOf, Bool.and_eq_true, decide_eq_true_iff, and_assoc]

variable {next : ℤ}

theorem waiting_between (hb : st.Bounded c.stream next) :
    ∀ q ∈ (st.waiting c).map MessageRow.seq, c.cursorSeq ≤ q ∧ q < next := by
  intro q hq
  obtain ⟨m, hm, rfl⟩ := List.mem_map.mp hq
  obtain ⟨hmem, hs, -, hle⟩ := mem_waiting.mp hm
  exact ⟨hle, (hb.2 m.seq m (by rw [← hs]; exact stored_of_mem hmem)).2⟩

theorem waiting_le (hb : st.Bounded c.stream next) : ((st.waiting c).length : ℤ) ≤ max (next - c.cursorSeq) 0 := by
  rw [← List.length_map (f := MessageRow.seq)]
  exact length_le_interval (nodup_waiting st c) (waiting_between hb)

/-- The filter `>` matches every stored message. -/
theorem wants_gt (hf : c.filters = [str ">"]) (hs : st.Subjected) {m : MessageRow} (hm : m ∈ st.messages) :
    c.wants m.subject = true := by
  obtain ⟨set, hset⟩ : ∃ set, Subject.parseSet [str ">"] = .ok set := ⟨_, rfl⟩
  rw [ConsumerRow.wants, hf, hset]
  exact (Subject.match_iff hset _).mpr (Subject.accepts_gt (hs m hm))

theorem remaining_eq_waiting_iff (hb : st.Bounded c.stream next) (hs : st.Subjected) (hf : c.filters = [str ">"]) :
    max (next - c.cursorSeq) 0 = ((st.waiting c).length : ℤ) ↔
      ∀ q, c.cursorSeq ≤ q → q < next → st.messages.find? (c.stream, q) ≠ none := by
  rw [eq_comm, ← List.length_map (f := MessageRow.seq), length_eq_interval_iff (nodup_waiting st c)
    (waiting_between hb)]
  refine forall_congr' fun q => imp_congr_right fun hle => imp_congr_right fun _ => ?_
  rw [List.mem_map]
  constructor
  · rintro ⟨m, hm, rfl⟩
    obtain ⟨hmem, hstream, -⟩ := mem_waiting.mp hm
    rw [← hstream, stored_of_mem hmem]
    exact Option.some_ne_none m
  · intro hne
    obtain ⟨m, hm⟩ := Option.ne_none_iff_exists'.mp hne
    obtain ⟨hstream, rfl⟩ := Prod.mk.inj (show m.key = (c.stream, q) from find?_key hm)
    have hmem := mem_of_find? hm
    exact ⟨m, mem_waiting.mpr ⟨hmem, hstream, wants_gt hf hs hmem, hle⟩, rfl⟩

/-- **Backlog.** What `consumerBacklog` reports is true exactly if the filter is not `>`, or no number from the cursor
to the head is missing among the stored messages. -/
theorem backlog_true_iff {h : List Visit} {b : Broker} (r : Runs h b) (hc : c ∈ b.store.consumers) :
    b.store.BacklogTrue c (b.store.headOf c.stream) ↔ (c.filters = [str ">"] →
      ∀ q, c.cursorSeq ≤ q → q < b.store.headOf c.stream → b.store.messages.find? (c.stream, q) ≠ none) := by
  obtain ⟨head, -, hhead, hb⟩ := r.sound.bounded (k := c.key) (by rw [find?_of_mem hc]; exact Option.some_ne_none c)
  rw [show b.store.headOf c.stream = head.next from hhead]
  unfold Store.BacklogTrue Store.consumerBacklog
  by_cases hf : c.filters = [str ">"]
  · simp only [if_pos hf]
    rw [remaining_eq_waiting_iff hb r.subjected hf]
    exact ⟨fun h _ => h, fun h => h hf⟩
  · simp only [if_neg hf]
    refine iff_of_true ?_ fun h => absurd h hf
    cases hset : Subject.parseSet c.filters with
    | error e => exact waiting_le hb
    | ok set =>
      dsimp only
      cases hl : set.pats.all Subject.Pattern.isLiteral with
      | false => exact waiting_le hb
      | true =>
        obtain ⟨hnodup, hmatch⟩ := Subject.literals_match hset hl
        rw [Bool.not_true, if_neg Bool.false_ne_true]
        simp only [ge_iff_le]
        rw [sum_length_filter_keys MessageRow.subject (fun m => decide (c.cursorSeq ≤ m.seq)) hnodup, Store.waiting]
        simp only [ConsumerRow.wants, hset, hmatch]

/-- Two messages, none of them admitted. -/
theorem backlog_true_two : ∃ c ∈ (playState (aSetup 2)).store.consumers,
    c.filters = [str ">"] ∧ (playState (aSetup 2)).store.BacklogTrue c 3 := by
  have hstate : ∃ c ∈ (playState (aSetup 2)).store.consumers, c.filters = [str ">"] ∧ c.cursorSeq = 1 ∧
      (playState (aSetup 2)).store.headOf c.stream = 3 ∧
      ∀ q ∈ [1, 2], ((playState (aSetup 2)).store.messages.find? (c.stream, q)).isSome = true := by decide +kernel
  have hruns := runs_play (aSetup 2)
  generalize playState (aSetup 2) = b at *
  obtain ⟨c, hc, hf, hcursor, hhead, hstored⟩ := hstate
  refine ⟨c, hc, hf, ?_⟩
  rw [← hhead, backlog_true_iff hruns hc, hhead, hcursor]
  intro _ q h₁ h₂
  refine Option.isSome_iff_ne_none.mp (hstored q ?_)
  rw [List.mem_cons, List.mem_singleton]
  omega

/-- Of three messages the second is purged: two wait, and three are reported. -/
theorem backlog_overcounts :
    let life := (1, aCreate) ::
      (2, aSubscribe) ::
      (3, aPublish) ::
      (4, .publish aStream { subject := str "b", body := [] }) ::
      (5, aPublish) ::
      [(6, .purge aStream { subject := str "b" } false [])]
    Runs (play life) (playState life) ∧ ∃ c ∈ (playState life).store.consumers,
      (playState life).store.consumerBacklog c.stream c.cursorSeq ((playState life).store.headOf c.stream) c.filters =
        (3, true) ∧ ((playState life).store.waiting c).length = 2 :=
  ⟨runs_play _, by decide +kernel⟩

end Backlog

end Messq

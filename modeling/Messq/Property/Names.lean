import Messq.Property.Terms

/-! # The names of streams

A stream is created by a user, whose names are checked and leave room for the suffix of a dead-letter stream, or by the
sink, for a consumer of such a stream. So every stream of a run has a name that the reads accept (`Runs.named`). -/

namespace Messq

open Lib Table Relation

variable {s : Bytes} {kind : Kind} {n : ℕ}

/-! ## Names -/

/-- What `validateName` asks of a stream's name. -/
structure DottedName (n : ℕ) (s : Bytes) : Prop where
  nonempty : s ≠ []
  length : s.length ≤ n
  bytes : s.all (Subject.nameByte true) = true
  head : s.head? ≠ some (chr '.')
  last : s.getLast? ≠ some (chr '.')
  single : s.tails.any (str "..").isPrefixOf = false

theorem validateName_eq_ok : Subject.validateName s true n = .ok () ↔ DottedName n s := by
  simp only [Subject.validateName, guard_eq_ok, Bool.true_and, Bool.or_eq_true, decide_eq_true_iff, not_or,
    Bool.not_eq_true,
    Bool.not_eq_false', not_lt, and_true]
  constructor
  · rintro ⟨h₁, h₂, h₃, ⟨h₄, h₅⟩, h₆⟩
    exact ⟨h₁, h₂, h₃, h₄, h₅, h₆⟩
  · intro h
    exact ⟨h.1, h.2, h.3, ⟨h.4, h.5⟩, h.6⟩

theorem DottedName.mono {n' : ℕ} (h : DottedName n s) (hle : n ≤ n') : DottedName n' s :=
  { h with length := h.length.trans hle }

/-- A dot in the middle does not meet another. -/
theorem single_append_dlq (s : Bytes) (hlast : s.getLast? ≠ some (chr '.')) (hne : s ≠ [])
    (h : s.tails.any (str "..").isPrefixOf = false) : (s ++ dlqSuffix).tails.any (str "..").isPrefixOf = false := by
  induction s with
  | nil => exact absurd rfl hne
  | cons c s ih =>
    rw [List.tails_cons, List.any_cons, Bool.or_eq_false_iff] at h
    rw [List.cons_append, List.tails_cons, List.any_cons, Bool.or_eq_false_iff]
    cases s with
    | nil =>
      have hc : (chr '.' == c) = false := by
        rw [beq_eq_false_iff_ne]
        rintro rfl
        exact hlast rfl
      refine ⟨?_, by decide⟩
      show ((chr '.' == c) && _) = false
      rw [hc]
      rfl
    | cons d s =>
      refine ⟨h.1, ih ?_ (List.cons_ne_nil _ _) h.2⟩
      rwa [List.getLast?_cons_cons] at hlast

theorem DottedName.dlq (h : DottedName Subject.maxNewStreamNameBytes s) :
    DottedName Subject.maxStreamNameBytes (dlqName s) where
  nonempty he := h.nonempty (List.append_eq_nil_iff.mp he).1
  length := by
    have hlen := h.length
    have hmax : Subject.maxNewStreamNameBytes + dlqSuffix.length = Subject.maxStreamNameBytes := by decide
    rw [dlqName, List.length_append]
    omega
  bytes := by
    rw [dlqName, List.all_append, h.bytes]
    decide
  head := by
    rw [dlqName, List.head?_append_of_ne_nil _ h.nonempty]
    exact h.head
  last := by
    rw [dlqName, List.getLast?_append_of_ne_nil _ (by decide)]
    decide
  single := single_append_dlq s h.last h.nonempty h.single

theorem validateExistingStreamName_eq_ok :
    validateExistingStreamName s = .ok () ↔ DottedName Subject.maxStreamNameBytes s :=
  liftGrammar_eq_ok.trans validateName_eq_ok

theorem validateNewStreamName_eq_ok :
    validateNewStreamName s = .ok () ↔ isDLQ s = false ∧ DottedName Subject.maxNewStreamNameBytes s := by
  rw [validateNewStreamName, guard_eq_ok, Bool.not_eq_true]
  exact and_congr_right fun _ => liftGrammar_eq_ok.trans validateName_eq_ok

/-! ## The invariant -/

/-- The names that streams get: those a user may give, and those of dead-letter streams. -/
def ProperName (s : Bytes) : Prop :=
  isDLQ s = false ∧ DottedName Subject.maxNewStreamNameBytes s ∨ isDLQ s = true ∧
    DottedName Subject.maxStreamNameBytes s

theorem ProperName.valid (h : ProperName s) : validateExistingStreamName s = .ok () := by
  refine validateExistingStreamName_eq_ok.mpr ?_
  rcases h with ⟨-, h⟩ | ⟨-, h⟩
  · exact h.mono (by decide)
  · exact h

/-- Streams have proper names, and only consumers of streams that users create have dead-letter streams. -/
structure Store.Named (st : Store) : Prop where
  names : ∀ s, st.streams.find? s ≠ none ∨ st.streamSeq.find? s ≠ none → ProperName s
  policies : ∀ k c, st.consumers.find? k = some c → c.deadPolicy = .dlq → isDLQ k.1 = false

section Named

variable {env : Env} {st st' : Store}

theorem Store.Named.dlq (h : st.Named) (hs : st.Sound) {k : Bytes × Bytes} {c : ConsumerRow}
    (hc : st.consumers.find? k = some c) (hp : c.deadPolicy = .dlq) : ProperName (dlqName k.1) := by
  obtain ⟨head, hhead, -⟩ := hs.bounded (k := k) (by rw [hc]; exact Option.some_ne_none c)
  refine .inr ⟨isDLQ_dlqName _, ?_⟩
  rcases h.names k.1 (.inr (by rw [hhead]; exact Option.some_ne_none head)) with ⟨-, hn⟩ | ⟨hd, -⟩
  · exact hn.dlq
  · exact absurd (hd.symm.trans (h.policies k c hc hp)) Bool.false_ne_true.symm

/-- No stream is new. -/
theorem Store.Named.of_names (h : st.Named) (hs : ∀ s, st'.streams.find? s ≠ none → st.streams.find? s ≠ none)
    (hq : ∀ s, st'.streamSeq.find? s ≠ none → st.streamSeq.find? s ≠ none) (hc : st'.consumers = st.consumers) :
    st'.Named :=
  ⟨fun s hp => h.names s (hp.imp (hs s) (hq s)), fun k c hk => h.policies k c (by rwa [← hc])⟩

theorem named_ensured {dlq origin : Bytes} (h : st.Named) (hd : ProperName dlq) :
    (st.ensured env dlq origin).Named := by
  refine ⟨fun s hp => ?_, h.policies⟩
  by_cases he : s = dlq
  · rwa [he]
  · refine h.names s ?_
    have hstreams : (st.ensured env dlq origin).streams.find? s = st.streams.find? s :=
      (find?_insertIgnore st.streams (dlqRow env.opts.dlq dlq env.nowMs) s).trans (if_neg he)
    have hseq : (st.ensured env dlq origin).streamSeq.find? s = st.streamSeq.find? s :=
      (find?_insertIgnore st.streamSeq ⟨dlq, 1⟩ s).trans (if_neg he)
    rwa [hstreams, hseq] at hp

theorem named_appended {m : MessageRow} {msgs : Table MessageRow.key} {e : Event} (h : st.Named) :
    (st.appended m msgs e).Named := by
  refine h.of_names (fun _ hs => hs) (fun s hs hn => hs ?_) rfl
  rw [Store.appended, find?_update, hn]
  rfl

theorem Buried.named {d : DeadCtx} (h : Buried env d st st') (hn : st.Named) (hs : st.Sound) : st'.Named := by
  cases h with
  | report policy outcome ho => exact hn.of_names (fun _ h => h) (fun _ h => h) rfl
  | copy c origin m row msgs trimmed truncated hcons hp =>
    exact named_appended (named_ensured hn (hn.dlq (k := (d.stream, d.consumer)) hs hcons hp))

theorem Act.named (h : Act env kind st st') (hn : st.Named) (hs : st.Sound) : st'.Named := by
  cases h with
  | log | lapse | limit | extend | release | ack | trim | evict | redact =>
    exact hn.of_names (fun _ h => h) (fun _ h => h) rfl
  | die _ st₁ ctx d t hb => exact (hb.named hn hs).of_names (fun _ h => h) (fun _ h => h) rfl
  | store _ m row msgs e => exact named_appended hn
  | tune _ streams hstreams =>
    refine hn.of_names (fun s h => ?_) (fun _ h => h) rfl
    rw [Ne, ← Option.isNone_iff_eq_none, ← Option.not_isSome, ← hstreams s, Option.not_isSome,
      Option.isNone_iff_eq_none]
    exact h

theorem Acts.named (h : Acts env kind st st') (hn : st.Named) (hs : st.Sound) : st'.Named := by
  induction h with
  | refl => exact hn
  | tail h₁ ha ih => exact ha.named ih (Acts.sound h₁ hs)

/-- **Requests.** -/
theorem effect_named {req : Request} {reply : Reply} (hs : st.Sound) (hn : st.Named)
    (hchk : checkRequest env req = .ok ())
    (h : applyRequest env req st = .ok (reply, st')) : st'.Named := by
  have he := applyRequest_effect h
  have hpolicies : ∀ k c', st'.consumers.find? k = some c' → c'.deadPolicy = .dlq → isDLQ k.1 = false := by
    intro k c' hc' hp
    rcases effect_terms hs hchk he hc' with ⟨c, hc, ht⟩ | ⟨cfg, -, hpol, ht⟩
    · exact hn.policies k c hc ((congrArg Terms.deadPolicy ht).symm.trans hp)
    · have hcfg : cfg.deadPolicy = .dlq := (congrArg Terms.deadPolicy ht).symm.trans hp
      rw [validateDeadPolicyForStream, guard_eq_ok] at hpol
      exact Bool.eq_false_iff.mpr fun hd => hpol.1 ⟨hd, hcfg⟩
  have hsame : st'.streams = st.streams → st'.streamSeq = st.streamSeq → st'.Named := fun h₁ h₂ =>
    ⟨fun s hp => hn.names s (by rwa [h₁, h₂] at hp), hpolicies⟩
  cases he.shape with
  | same => exact hn
  | @created cfg _ _ he =>
    obtain ⟨next, -, hseq⟩ := he.seq
    refine ⟨fun s hp => ?_, hpolicies⟩
    by_cases hname : s = cfg.name
    · simp only [checkRequest, bind_eq_ok] at hchk
      obtain ⟨_, hvalid, -⟩ := hchk
      rw [hname]
      exact .inl (validateNewStreamName_eq_ok.mp hvalid)
    · have hname : s ≠ (cfg.row env.nowMs).name := hname
      rw [he.streams, hseq, if_neg hname, if_neg hname] at hp
      exact hn.names s hp
  | deleted he =>
    refine ⟨fun s hp => ?_, hpolicies⟩
    rw [he.streams, he.seq] at hp
    split at hp
    · simp at hp
    · exact hn.names s hp
  | reaped _ he => exact hsame he.streams he.seq
  | confined he => exact hsame he.streams he.seq
  | purged he => exact hsame he.streams he.seq
  | restarted he => exact hsame he.streams he.seq
  | moved hb => exact (applyRequest_acts hb _ _ _ h).named hn hs

end Named

theorem Runs.named {h : List Visit} {b : Broker} (r : Runs h b) : b.store.Named := by
  refine Runs.holds (C := fun _ => True) (I := Store.Named) ⟨fun s hp => ?_, fun _ _ hc => nomatch hc⟩
    (fun _ _ h => ⟨h.names, h.policies⟩) (fun _ _ _ _ hs _ _ hcom hn => effect_named (hs.uncarried [])
      hn hcom.checked hcom.run) r
    fun _ _ => trivial
  rcases hp with hp | hp <;> exact absurd rfl hp

end Messq

import Messq.Effect.Purge

/-! # What a request does

`Effect` says for each request what a committed run of it does to the tables; `applyRequest_effect` collects the
inversion lemmas of the commands, and `exec_cases` lifts them to a step of the broker. -/

namespace Messq

open Lib Relation

variable {env : Env} {reply : Reply} {req : Request} {st st' : Store}

def Effect (env : Env) (st : Store) (req : Request) (reply : Reply) (st' : Store) : Prop :=
  match req with
  | .createStream cfg _ => st' = st ∨ StreamCreated st (cfg.row env.nowMs) st'
  | .deleteStream name _ _ => StreamDeleted st name st'
  | .reapChunk name => Reaped st name st'
  | .reapResume => st' = st ∨ ∃ name, st.metaTable.find? (.reap name) ≠ none ∧ Reaped st name st'
  | .createConsumer stream cfg start _ => Confined st (stream, cfg.name) st' ∧
      (st' = st ∨ ConsumerInserted st stream cfg start st' ∨ ConsumerReplaced st stream cfg st')
  | .updateConsumer stream name p _ => Confined st (stream, name) st' ∧
      (st' = st ∨ ∃ c, st.consumers.find? (stream, name) = some c ∧
        (validateDeadPolicyForStream stream (p.apply c.config).deadPolicy = .ok () ∧
          validateConsumerConfig (p.apply c.config) env.opts.consumerLimits = .ok ()) ∧
        ConsumerUpdated st stream name (p.apply c.config) st')
  | .deleteConsumer stream name _ => Confined st (stream, name) st' ∧
      st'.consumers.find? (stream, name) = none ∧ ∀ q, st'.deliveries.find? (stream, name, q) = none
  | .setPaused stream name paused _ => Confined st (stream, name) st' ∧ st'.deliveries = st.deliveries ∧
      (st'.consumers.find? (stream, name) = st.consumers.find? (stream, name) ∨
        st'.consumers.find? (stream, name) = (st.consumers.find? (stream, name)).map fun c =>
          { c with paused := paused })
  | .fetch stream consumer _ _ => ∃ r c, reply = .fetched r ∧ st.consumers.find? (stream, consumer) = some c ∧
      r.stream = stream ∧ r.consumer = consumer ∧ r.generation = c.generation ∧ Confined st (stream, consumer) st' ∧
      (r.claimed = [] ∧ st' = st ∨ Fetched st env c r st')
  | .seek stream consumer _ dryRun _ => Confined st (stream, consumer) st' ∧
      (dryRun = true ∧ st' = st ∨ dryRun = false ∧ Sought st stream consumer st')
  | .purge stream spec dryRun _ => st' = st ∨ dryRun = false ∧ Purged st stream (st.purges stream spec) st'
  | .restart _ => Restarted env st st'
  | .updateStream .. | .publish .. | .publishBatch .. | .sweepDedup _ | .settle _ | .sweep _ | .retire _
  | .retention _ | .trimEvents .. | .adminAction .. => Moves st st'

theorem applyRequest_effect (h : applyRequest env req st = .ok (reply, st')) : Effect env st req reply st' := by
  cases req with
  | createStream cfg actor =>
    obtain ⟨r, h, -⟩ := run_map.mp h
    exact createStream_run h
  | deleteStream name confirm actor =>
    obtain ⟨r, h, -⟩ := run_map.mp h
    exact deleteStream_run h
  | reapChunk name =>
    obtain ⟨r, h, -⟩ := run_map.mp h
    exact reapChunk_run h
  | reapResume =>
    obtain ⟨r, h, -⟩ := run_map.mp h
    exact reapResume_run h
  | createConsumer stream cfg start actor =>
    obtain ⟨r, h, -⟩ := run_map.mp h
    exact createConsumer_run h
  | updateConsumer stream name p actor =>
    obtain ⟨r, h, -⟩ := run_map.mp h
    exact updateConsumer_run h
  | deleteConsumer stream name actor =>
    obtain ⟨r, h, -⟩ := run_map.mp h
    exact deleteConsumer_run h
  | setPaused stream name paused actor =>
    obtain ⟨r, h, -⟩ := run_map.mp h
    exact setPaused_run h
  | fetch stream consumer batch maxBytes =>
    obtain ⟨r, hr, rfl⟩ := run_map.mp h
    obtain ⟨c, hc⟩ := fetch_run hr
    exact ⟨r, c, rfl, hc⟩
  | seek stream consumer dest dryRun actor =>
    obtain ⟨r, h, -⟩ := run_map.mp h
    exact seek_run h
  | purge stream spec dryRun actor =>
    obtain ⟨r, h, -⟩ := run_map.mp h
    exact purge_run h
  | restart unclean =>
    obtain ⟨r, h, -⟩ := run_map.mp h
    exact restart_run h
  | _ => exact (applyRequest_acts (by trivial) _ _ _ h).moves

def Request.fetches : Request → Bool
  | .fetch .. => true
  | _ => false

/-- A command on one consumer has to account for that consumer's rows only. -/
theorem Confined.row_kept {pair : Bytes × Bytes} (h : Confined st pair st')
    (hpair : ∀ q d, st'.deliveries.find? (pair.1, pair.2, q) = some d →
      st.deliveries.find? (pair.1, pair.2, q) = some d)
    (k : Bytes × Bytes × ℤ) (d : DeliveryRow) (hd : st'.deliveries.find? k = some d) :
    st.deliveries.find? k = some d := by
  obtain ⟨s, n, q⟩ := k
  by_cases hk : (s, n) = pair
  · subst hk
    exact hpair q d hd
  · rwa [h.deliveries _ hk] at hd

/-- The shapes a committed request can have, for facts that do not tell apart the requests of one shape. -/
inductive Shape (env : Env) (st : Store) : Request → Store → Prop
  | same {req : Request} : Shape env st req st
  | created {cfg : StreamConfig} {actor : Bytes} {st' : Store} (h : StreamCreated st (cfg.row env.nowMs) st') :
    Shape env st (.createStream cfg actor) st'
  | deleted {name confirm actor : Bytes} {st' : Store} (h : StreamDeleted st name st') :
    Shape env st (.deleteStream name confirm actor) st'
  | reaped {req : Request} {name : Bytes} {st' : Store}
    (hm : req = .reapChunk name ∨ st.metaTable.find? (.reap name) ≠ none) (h : Reaped st name st') :
    Shape env st req st'
  /-- Apart from a fetch, which finds its consumer, such a command only deletes delivery rows. -/
  | confined {req : Request} {pair : Bytes × Bytes} {st' : Store} (h : Confined st pair st')
    (hrows : req.fetches = true ∧ st.consumers.find? pair ≠ none ∨
      ∀ k d, st'.deliveries.find? k = some d → st.deliveries.find? k = some d) :
    Shape env st req st'
  | purged {req : Request} {stream : Bytes} {hit : ℤ → Prop} {st' : Store} (h : Purged st stream hit st') :
    Shape env st req st'
  | restarted {unclean : Option Bytes} {st' : Store} (h : Restarted env st st') : Shape env st (.restart unclean) st'
  | moved {req : Request} {st' : Store} (hb : req.Background) (h : Moves st st') : Shape env st req st'

theorem Effect.shape (he : Effect env st req reply st') : Shape env st req st' := by
  cases req with
  | createStream cfg actor =>
    rcases he with rfl | he
    · exact .same
    · exact .created he
  | deleteStream name confirm actor => exact .deleted he
  | reapChunk name => exact .reaped (.inl rfl) he
  | reapResume =>
    rcases he with rfl | ⟨name, hm, he⟩
    · exact .same
    · exact .reaped (.inr hm) he
  | createConsumer stream cfg start actor =>
    obtain ⟨hc, rfl | he | he⟩ := he
    · exact .same
    all_goals exact .confined hc (.inr fun k d hd => he.deliveries ▸ hd)
  | updateConsumer stream name p actor =>
    obtain ⟨hc, rfl | ⟨c, -, -, st₁, hst₁, -, hd₁⟩⟩ := he
    · exact .same
    · refine .confined hc (.inr (hc.row_kept fun q d hd => ?_))
      rw [hd₁] at hd
      rcases hst₁ with rfl | ⟨low, hlow⟩
      · exact hd
      · exact (hlow.kept q d hd).1
  | deleteConsumer stream name actor =>
    obtain ⟨hc, -, hnone⟩ := he
    exact .confined hc (.inr (hc.row_kept fun q d hd => by cases (hnone q).symm.trans hd))
  | setPaused stream name paused actor =>
    obtain ⟨hc, hd, -⟩ := he
    exact .confined hc (.inr fun k d => by rw [hd]; exact id)
  | fetch stream consumer batch maxBytes =>
    obtain ⟨r, c, -, hc, -, -, -, hconf, -⟩ := he
    exact .confined hconf (.inl ⟨rfl, by simp [hc]⟩)
  | seek stream consumer dest dryRun actor =>
    obtain ⟨hc, ⟨-, rfl⟩ | ⟨-, he⟩⟩ := he
    · exact .same
    · exact .confined hc (.inr (hc.row_kept fun q d hd => by cases (he.deliveries q).symm.trans hd))
  | purge stream spec dryRun actor =>
    rcases he with rfl | ⟨-, he⟩
    · exact .same
    · exact .purged he
  | restart unclean => exact .restarted he
  | _ => exact .moved trivial he

/-- The requests that only delete delivery rows. -/
theorem effect_row {k : Bytes × Bytes × ℤ} {d : DeliveryRow} (he : Effect env st req reply st') (hb : ¬ req.Background)
    (hf : req.fetches = false) (hr : ∀ unclean, req ≠ .restart unclean) (hd : st'.deliveries.find? k = some d) :
    st.deliveries.find? k = some d := by
  cases he.shape with
  | same => exact hd
  | created h => rwa [h.deliveries] at hd
  | deleted h =>
    rw [h.deliveries] at hd
    split at hd
    · cases hd
    · exact hd
  | reaped _ h => rwa [h.deliveries] at hd
  | confined _ hrows => exact (hrows.resolve_left (by simp [hf])) k d hd
  | purged h => exact ((h.deliveries k d).mp hd).1
  | restarted => exact absurd rfl (hr _)
  | moved hbg => exact absurd hbg hb

/-! ## Steps of the broker -/

/-- A step that committed: its request passed the checks and ran on the store with no carriers. -/
structure Committed (b : Broker) (s : Step) (reply : Reply) (st : Store) : Prop where
  admitted : b.admits s.req = true
  checked : checkRequest s.env s.req = .ok ()
  run : applyRequest s.env s.req { b.store with carriers := [] } = .ok (reply, st)
  post : (b.exec s).1 = ⟨{ st with carriers := [] }, nextReaping b.reaping s.req reply, false⟩
  out : (b.exec s).2 = .ok reply st.carriers

/-- A request that passes its checks and runs is committed. -/
theorem Committed.of_run {b : Broker} {s : Step} (ha : b.admits s.req = true) (hc : checkRequest s.env s.req = .ok ())
    (hr : applyRequest s.env s.req { b.store with carriers := [] } = .ok (reply, st)) : Committed b s reply st := by
  have hrun : command s.env s.req { b.store with carriers := [] } = .ok (reply, st) :=
    run_bind.mpr ⟨(), _, check_run.mpr ⟨hc, rfl⟩, hr⟩
  exact ⟨ha, hc, hr, by simp [Broker.exec, ha, hrun], by simp [Broker.exec, ha, hrun]⟩

theorem exec_cases (b : Broker) (s : Step) : (∃ reply st, Committed b s reply st) ∨
    ((b.exec s).1.store = b.store ∧ (b.exec s).1.reaping = b.reaping ∧ (b.exec s).2.events = [] ∧
      ∀ reply es, (b.exec s).2 ≠ .ok reply es) := by
  cases ha : b.admits s.req with
  | false =>
    exact .inr ⟨by simp [Broker.exec, ha], by simp [Broker.exec, ha], by simp [Broker.exec, ha, Outcome.events],
      by simp [Broker.exec, ha]⟩
  | true =>
    cases hrun : command s.env s.req { b.store with carriers := [] } with
    | ok p =>
      obtain ⟨reply, st⟩ := p
      have hcmd := hrun
      simp only [command, run_bind, check_run] at hcmd
      obtain ⟨_, _, ⟨hc, rfl⟩, hcmd⟩ := hcmd
      exact .inl ⟨reply, st, .of_run ha hc hcmd⟩
    | error e =>
      cases e with
      | refused r => exact .inr ⟨by simp [Broker.exec, ha, hrun], by simp [Broker.exec, ha, hrun],
          by simp [Broker.exec, ha, hrun, Outcome.events], by simp [Broker.exec, ha, hrun]⟩
      | fault f => exact .inr ⟨by simp [Broker.exec, ha, hrun], by simp [Broker.exec, ha, hrun],
          by simp [Broker.exec, ha, hrun, Outcome.events], by simp [Broker.exec, ha, hrun]⟩

end Messq

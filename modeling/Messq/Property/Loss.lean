import Messq.Run

/-! # Nothing a consumer asks for is lost

From the moment a consumer is created, every stored message from its first cursor on that its filters match is still
ahead of the cursor, or has a delivery row, or an event of the run reports the end of its delivery (`no_loss`). The run
may hold any requests but a seek, a purge, a deletion or a change of filters. -/

namespace Messq

open Lib Table

variable {b : Broker} {k : Bytes × Bytes} {s : Step}

/-- The request moves or removes what the consumer `k` has to deliver. -/
def Request.disturbs (req : Request) (k : Bytes × Bytes) : Bool :=
  match req with
  | .seek s n _ false _ => (s, n) == k
  | .purge s _ false _ => s == k.1
  | _ => req.deletes k

/-- An event of the run reports the end of a delivery. -/
def EndedIn (h : List Visit) (k : Bytes × Bytes) (q : ℤ) : Prop :=
  ∃ v ∈ h, ∃ e ∈ v.out.events, e.Ends (k.1, k.2, q)

theorem action_of_undisturbed {v : Visit} (h : v.act.req.disturbs k = false) :
    Visit.action v k ≠ .purge ∧ Visit.action v k ≠ .seek ∧ v.act.req.deletes k = false := by
  refine ⟨fun ha => ?_, fun ha => ?_, ?_⟩
  · obtain ⟨spec, actor, hreq⟩ := action_purge ha
    simp [hreq, Request.disturbs] at h
  · obtain ⟨dest, actor, hreq⟩ := action_seek ha
    simp [hreq, Request.disturbs] at h
  · unfold Request.disturbs at h
    split at h
    · rename_i hreq
      rw [hreq]
      rfl
    · rename_i hreq
      rw [hreq]
      rfl
    · exact h

/-- A patch that keeps the filters asks for what was asked for. -/
theorem patch_wanted {c c' : ConsumerRow} (ha : Visit.action (visit Broker.exec b s) k = .patch)
    (hc : b.store.consumers.find? k = some c) (hc' : (b.exec s).1.store.consumers.find? k = some c')
    (hf : c'.filters = c.filters) : ((b.exec s).1.store.ledger c').wanted = (b.store.ledger c).wanted := by
  have hkey := (find?_key hc).trans (find?_key hc').symm
  obtain ⟨hstream, -⟩ := Prod.mk.inj hkey
  have hm : (b.exec s).1.store.messages = b.store.messages := by
    rcases exec_cases b s with ⟨reply, st, hcom⟩ | ⟨hst, -⟩
    · rw [hcom.post]
      have he := hcom.effect
      rcases action_patch ha with ⟨cfg, start, actor, hreq, -⟩ | ⟨p, actor, hreq⟩ <;>
      · rw [show s.req = _ from hreq] at he
        exact he.1.messages
    · rw [hst]
  simp only [Store.ledger, ConsumerRow.wants, hm, hf, hstream]

/-- What the consumer has to deliver after the visits `h` since its creation. -/
structure Tracks (k : Bytes × Bytes) (c₀ : ConsumerRow) (h : List Visit) (b : Broker) : Prop where
  sound : b.store.Sound
  row : ∃ c, b.store.consumers.find? k = some c ∧ c.filters = c₀.filters ∧
    (b.store.ledger c).Covers c₀.cursorSeq (EndedIn h k)

/-- **Step.** A visit that does not disturb the consumer loses nothing. -/
theorem Tracks.step {c₀ : ConsumerRow} {h : List Visit} (ht : Tracks k c₀ h b) (hd : s.req.disturbs k = false)
    (hf : ∀ c, (b.exec s).1.store.consumers.find? k = some c → c.filters = c₀.filters) :
    Tracks k c₀ (h ++ [visit Broker.exec b s]) (b.exec s).1 := by
  obtain ⟨hs, c, hc, hfc, hcov⟩ := ht
  obtain ⟨hpurge, hseek, hdel⟩ := action_of_undisturbed (v := visit Broker.exec b s) hd
  refine ⟨exec_sound hs s, ?_⟩
  obtain ⟨c', hc'⟩ : ∃ c', (b.exec s).1.store.consumers.find? k = some c' := by
    refine Option.ne_none_iff_exists'.mp fun hn => ?_
    have := view_vanished hs (view_of_find? hc) (view_eq_none.mpr hn)
    rw [show s.req.deletes k = false from hdel] at this
    cases this
  have hstep := view_step hs (view_of_find? hc) (view_of_find? hc')
  have hcov' := hstep.covers (hs.ledger k c hc) hpurge hseek
    (fun ha q hq => by rw [patch_wanted ha hc hc' ((hf c' hc').trans hfc.symm)] at hq; exact hq) hcov
  refine ⟨c', hc', hf c' hc', fun q hq hw => (hcov' q hq hw).imp_right (Or.imp_right ?_)⟩
  rintro (⟨v, hv, hend⟩ | hdrop)
  · exact ⟨v, List.mem_append_left _ hv, hend⟩
  · exact ⟨_, List.mem_append_right _ (List.mem_singleton.mpr rfl), action_drops hdrop⟩

/-- **No loss.** From any point of a run where the consumer stands as `c₀`, its creation above all, every matching
stored message from the cursor of `c₀` on is ahead of the cursor, has a delivery row, or its delivery was reported as
ended. -/
theorem no_loss {h₁ h₂ : List Visit} {b₀ b : Broker} (r₁ : Runs h₁ b₀) (r₂ : History Broker.exec b₀ h₂ b)
    {k : Bytes × Bytes} {c₀ : ConsumerRow} (hc₀ : b₀.store.consumers.find? k = some c₀)
    (hd : ∀ v ∈ h₂, v.act.req.disturbs k = false)
    (hf : ∀ v ∈ h₂, ∀ c ∈ v.post.store.consumers.find? k, c.filters = c₀.filters) :
    ∃ c, b.store.consumers.find? k = some c ∧ ∀ m ∈ b.store.messages, m.stream = k.1 → c₀.cursorSeq ≤ m.seq →
      c₀.wants m.subject = true →
      c.cursorSeq ≤ m.seq ∨ b.store.deliveries.find? (k.1, k.2, m.seq) ≠ none ∨ EndedIn h₂ k m.seq := by
  have htracks : Tracks k c₀ h₂ b := by
    refine History.invariant
      (C := fun _ v => v.act.req.disturbs k = false ∧ ∀ c ∈ v.post.store.consumers.find? k, c.filters = c₀.filters)
      (I := Tracks k c₀) r₂ (upheld_of_forall fun v hv => ⟨hd v hv, hf v hv⟩) ?_ ?_
    · exact ⟨r₁.sound, c₀, hc₀, rfl, fun q hq _ => .inl hq⟩
    · intro h b s ht hc
      exact ht.step hc.1 hc.2
  obtain ⟨-, c, hc, hfc, hcov⟩ := htracks
  obtain ⟨hs, hn⟩ := pair_of_find? (s := k.1) (n := k.2) hc
  refine ⟨c, hc, fun m hm hstream hq hw => ?_⟩
  have hfind : b.store.messages.find? (c.stream, m.seq) = some m := by
    rw [hs, ← hstream]
    exact find?_of_mem hm
  refine (hcov m.seq hq ⟨m, hfind, ?_⟩).imp_right (Or.imp_left fun hslot hrow => hslot (slot_eq_none.mpr ?_))
  · unfold ConsumerRow.wants at hw ⊢
    rw [hfc]
    exact hw
  · rw [hs, hn]
    exact hrow

def firstAck : ClientItem := ⟨{ token := ⟨aStream, aConsumer, 1, 1, 1⟩, verb := .ack },
  ⟨by show Subject.validateStreamName aStream = _; decide,
    by show Subject.validateConsumerName aConsumer = _; decide, by decide, by decide, by decide⟩⟩

/-- Three messages: the first is acknowledged, the second is delivered, restarted and dropped from a shrunk window, the
third arrives late. -/
def busyLife : List Step :=
  [⟨.atMs 3, aPublish⟩,
   ⟨.atMs 4, aPublish⟩,
   ⟨.atMs 10, aFetch 1⟩,
   ⟨.atMs 11, .settle [firstAck]⟩,
   ⟨.atMs 12, .restart none⟩,
   ⟨.atMs 13, aPublish⟩,
   ⟨.atMs 14, aFetch 1⟩,
   ⟨.atMs 15, .updateConsumer aStream aConsumer { maxAckPending := some 1 } []⟩]

theorem no_loss_busyLife : ∃ c₀ c,
    (playState (aSetup 0)).store.consumers.find? (aStream, aConsumer) = some c₀ ∧
    (run Broker.exec (playState (aSetup 0)) busyLife).store.consumers.find? (aStream, aConsumer) =
      some c ∧
    c₀.cursorSeq = 1 ∧
    ∀ m ∈ (run Broker.exec (playState (aSetup 0)) busyLife).store.messages, m.stream = aStream →
      c₀.cursorSeq ≤ m.seq → c₀.wants m.subject = true →
      c.cursorSeq ≤ m.seq ∨
      (run Broker.exec (playState (aSetup 0)) busyLife).store.deliveries.find?
        (aStream, aConsumer, m.seq) ≠ none ∨
      EndedIn (trace Broker.exec (playState (aSetup 0)) busyLife) (aStream, aConsumer) m.seq := by
  have hc₀ : ((playState (aSetup 0)).store.consumers.find? (aStream, aConsumer)).map
      (fun c => (c.cursorSeq, c.filters)) = some (1, (defaultConsumerConfig aConsumer).filters) := by
    decide +kernel
  obtain ⟨c₀, hfind, hcols⟩ := Option.map_eq_some_iff.mp hc₀
  obtain ⟨hcursor, hfilters⟩ := Prod.mk.inj hcols
  obtain ⟨c, hc, hm⟩ := no_loss (runs_play (aSetup 0)) (history_trace _ busyLife) hfind (by decide +kernel)
    (by rw [hfilters]; decide +kernel)
  exact ⟨c₀, c, hfind, hc, hcursor, hm⟩

end Messq

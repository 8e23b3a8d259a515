import Messq.Run

/-! # Delivery rows and their consumer's generation

A row is fenced by its consumer's generation. A seek bumps the generation and drops every row, but a purge bumps it
for each consumer that holds a row among its victims and drops only the victims' rows, so a purge of a part of a
consumer's pending set leaves rows of the old generation behind (`partial_purge_splits`). As long as no purge does
that, every row carries its consumer's generation (`generations_agree`). -/

namespace Messq

open Lib Table

variable {b : Broker} {c : ConsumerRow} {s : Step}

def Request.purges : Request → Bool
  | .purge .. => true
  | _ => false

/-- Of the rows a consumer has, a purge takes all or none. -/
def PurgesWhole (v : Visit) : Prop :=
  v.act.req.purges = true → ∀ d ∈ v.pre.store.deliveries, ∀ d' ∈ v.pre.store.deliveries, d'.stream = d.stream →
    d'.consumer = d.consumer → v.post.store.deliveries.find? d.key = none → v.post.store.deliveries.find? d'.key = none

instance (v : Visit) : Decidable (PurgesWhole v) := by unfold PurgesWhole; infer_instance

theorem purge_keeps_epoch {k : Bytes × Bytes} {l l' : Ledger} (hw : PurgesWhole (visit Broker.exec b s))
    (hl : b.view k = some l) (hl' : (b.exec s).1.view k = some l')
    (ha : Visit.action (visit Broker.exec b s) k = .purge) : l'.epoch = l.epoch ∨ ∀ q, l'.slot q = none := by
  obtain ⟨spec, actor, hreq⟩ := action_purge ha
  obtain ⟨c, hc, rfl⟩ := view_eq_some.mp hl
  obtain ⟨c', hc', rfl⟩ := view_eq_some.mp hl'
  obtain ⟨stream, name⟩ := k
  have hsame : c' = c → c'.generation = c.generation := fun h => by rw [h]
  rcases exec_cases b s with ⟨reply, st, hcom⟩ | ⟨hst, -⟩
  · have he := hcom.effect
    rw [show s.req = _ from hreq] at he
    rw [hcom.post] at hc' ⊢
    rcases he with rfl | ⟨-, he⟩
    · exact .inl (hsame (Option.some.inj (hc'.symm.trans hc)))
    · obtain ⟨cursor, gen, hrow, -, -, ⟨-, p, hhit, hheld⟩ | ⟨hgen, -⟩⟩ := he.row name c hc
      · refine .inr fun q => slot_eq_none.mpr (Option.eq_none_iff_forall_ne_some.mpr fun d' hd' => ?_)
        obtain ⟨rfl, rfl⟩ := pair_of_find? hc'
        obtain ⟨d, hd⟩ := Option.ne_none_iff_exists'.mp hheld
        have hgone : st.deliveries.find? d.key = none := Option.eq_none_iff_forall_ne_some.mpr fun x hx => by
          rw [find?_key hd] at hx
          exact ((he.deliveries _ x).mp hx).2 ⟨rfl, hhit⟩
        -- the row that is left shares its consumer with the one that is gone
        have hkey := find?_key hd
        have hkey' := find?_key hd'
        simp only [DeliveryRow.key, Prod.mk.injEq] at hkey hkey'
        have hnone := hw (by rw [hreq]; rfl) d (mem_of_find? hd) d' (mem_of_find? ((he.deliveries _ d').mp hd').1)
          (hkey'.1.trans hkey.1.symm) (hkey'.2.1.trans hkey.2.1.symm) (by rw [visit, hcom.post]; exact hgone)
        rw [visit, hcom.post, show d'.key = _ from find?_key hd'] at hnone
        cases hnone.symm.trans hd'
      · obtain rfl : c' = _ := Option.some.inj (hc'.symm.trans hrow)
        exact .inl hgen
  · rw [hst] at hc' ⊢
    exact .inl (hsame (Option.some.inj (hc'.symm.trans hc)))

/-- **Run.** Without partial purges every ledger stays fenced. -/
theorem Runs.fenced {h : List Visit} (r : Runs h b) (hp : ∀ v ∈ h, PurgesWhole v) :
    ∀ k l, b.view k = some l → l.Fenced := by
  suffices b.store.Sound ∧ ∀ k l, b.view k = some l → l.Fenced from this.2
  refine History.invariant (C := fun _ v => PurgesWhole v)
    (I := fun _ b => b.store.Sound ∧ ∀ k l, b.view k = some l → l.Fenced) r (upheld_of_forall hp)
    ⟨sound_empty, fun k l hl => by cases hl⟩ ?_
  rintro _ b s ⟨hs, hf⟩ hw
  refine ⟨exec_sound hs s, fun k l' hl' => ?_⟩
  cases hl : b.view k with
  | none =>
    intro q t ht
    rw [(view_born hs hl hl').1 q] at ht
    cases ht
  | some l => exact (view_step hs hl hl').fenced (hf k l hl) (purge_keeps_epoch hw hl hl')

/-- A row of a fenced ledger carries the consumer's generation. -/
theorem fenced_row {k : Bytes × Bytes × ℤ} {d : DeliveryRow} (hf : ∀ k l, b.view k = some l → l.Fenced)
    (hc : b.store.consumers.find? (k.1, k.2.1) = some c) (hd : b.store.deliveries.find? k = some d) :
    d.generation = c.generation := by
  obtain ⟨stream, name, q⟩ := k
  obtain ⟨rfl, rfl⟩ := pair_of_find? hc
  exact hf _ _ (view_of_find? hc) q d.slot (slot_eq_some.mpr ⟨d, hd, rfl⟩)

/-- A fetch on a consumer leaves the generation as it is. -/
theorem minted_generation {t : Token} {c' : ConsumerRow} (hs : b.store.Sound) (ht : Minted (visit Broker.exec b s) t)
    (hc : b.store.consumers.find? (t.stream, t.consumer) = some c)
    (hc' : (b.exec s).1.store.consumers.find? (t.stream, t.consumer) = some c') : c'.generation = c.generation := by
  have hstep := view_step hs (view_of_find? hc) (view_of_find? hc')
  obtain ⟨x, hx, -⟩ := ht.claimed
  obtain ⟨batch, maxBytes, hreq, -⟩ := ht.req
  have ha : ∃ now S, Visit.action (visit Broker.exec b s) (t.stream, t.consumer) = .fetch now S := by
    unfold Visit.claimed at hx
    rw [hreq] at hx
    split at hx
    · rename_i r es hfetch hout
      cases hfetch
      simp only [Visit.action, hout, Request.action, hreq, if_pos]
      exact ⟨_, _, rfl⟩
    · cases hx
  obtain ⟨now, S, ha⟩ := ha
  rw [ha] at hstep
  cases hstep with
  | fetch h₁ h₂ => exact h₂.epoch.trans h₁.epoch

/-- **Generations agree.** In a run without partial purges every delivery row carries its consumer's generation; a
token fences the row it was minted for, and the sweeper skips no row for its generation. -/
theorem generations_agree {h : List Visit} {b : Broker} (r : Runs h b) (hp : ∀ v ∈ h, PurgesWhole v)
    (hg : ∀ v ∈ h, ∀ c ∈ v.pre.store.consumers, c.generation ≤ maxInt32) :
    (∀ d ∈ b.store.deliveries, ∃ c, b.store.consumers.find? (d.stream, d.consumer) = some c ∧
      d.generation = c.generation) ∧
    (∀ v ∈ h, ∀ t ∈ Visit.tokens v, ∃ d, v.post.store.deliveries.find? t.row = some d ∧ t.fences d = true) ∧
    (∀ d ∈ b.store.deliveries, ∀ lp st env n,
      loadSweepPolicy b.store d.stream d.consumer b.store = .ok (some lp, st) →
      (decideSweep ⟨d.attempts, d.generation, d.visibleAt, d.deliveredAt.getD 0⟩ lp.policy
        (Env.nowMs env) (env.jitter n)).action ≠ .skip .generation) := by
  have hrow : ∀ d ∈ b.store.deliveries, ∃ c, b.store.consumers.find? (d.stream, d.consumer) = some c ∧
      d.generation = c.generation := by
    intro d hd
    have hfind := find?_of_mem hd
    obtain ⟨c, hc⟩ := Option.ne_none_iff_exists'.mp (r.sound.owner d.key (by simp [hfind]))
    exact ⟨c, hc, fenced_row (r.fenced hp) hc hfind⟩
  refine ⟨hrow, fun v hv t ht => ?_, fun d hd lp st env n hlp => decideSweep_generation ?_⟩
  · obtain ⟨h₁, h₂, rfl, r₁, hvis, r₂⟩ := r.at_mem hv
    rw [hvis] at ht
    have hm := tokens_minted ht
    rw [← hvis] at hm
    obtain ⟨d, hd, hatt⟩ := hm.row
    obtain ⟨c, hc, hgen⟩ := hm.consumer
    obtain ⟨c', hc'⟩ := Option.ne_none_iff_exists'.mp (r₂.sound.owner t.row (by simp [hd]))
    have hfenced := r₂.fenced (fun w hw => hp w (by simp at hw ⊢; tauto))
    refine ⟨d, hd, Token.fences_iff.mpr ⟨find?_key hd, hatt, ?_⟩⟩
    have heq : c'.generation = c.generation := by
      rw [hvis] at hc' hm
      exact minted_generation r₁.sound hm hc hc'
    rw [fenced_row hfenced hc' hd, heq, hgen,
      toInt32_eq (r₁.sound.config _ c hc).1 (hg v hv c (mem_of_find? hc))]
  · obtain ⟨c, hc, hgen⟩ := hrow d hd
    unfold loadSweepPolicy at hlp
    rw [hc] at hlp
    obtain ⟨g, st₁, hscan, hlp⟩ := run_bind.mp hlp
    obtain ⟨-, rfl, -⟩ := scanInt32_run.mp hscan
    obtain ⟨hlp, -⟩ := run_pure.mp hlp
    cases hlp
    exact hgen

/-! ## A partial purge -/

def partialPurge : List (ℤ × Request) :=
  aSetup 2 ++ [(10, aFetch 10), (11, .purge aStream { upToSeq := some 1 } false [])]

/-- The consumer holds rows 1 and 2; the purge of message 1 bumps its generation and leaves row 2 behind. -/
theorem partial_purge_splits :
    Runs (play partialPurge) (playState partialPurge) ∧
    ((playState partialPurge).store.deliveries.find? (aStream, aConsumer, 2)).map DeliveryRow.generation =
      some 1 ∧
    ((playState partialPurge).store.consumers.find? (aStream, aConsumer)).map ConsumerRow.generation =
      some 2 :=
  ⟨runs_play _, by decide +kernel⟩

def wholePurge : List (ℤ × Request) :=
  aSetup 2 ++ [(10, aFetch 10), (11, .purge aStream {} false []),
    (12, aPublish), (13, aFetch 10)]

/-- A purge of everything is followed by a delivery of the new generation. -/
theorem generations_agree_wholePurge :
    (∀ v ∈ play wholePurge, PurgesWhole v) ∧
    ((playState wholePurge).store.deliveries.find? (aStream, aConsumer, 3)).map DeliveryRow.generation =
      some 2 ∧
    ∀ d ∈ (playState wholePurge).store.deliveries, ∃ c,
      (playState wholePurge).store.consumers.find? (d.stream, d.consumer) = some c ∧ d.generation = c.generation :=
  have hp : ∀ v ∈ play wholePurge, PurgesWhole v := by decide +kernel
  ⟨hp, by decide +kernel, (generations_agree (runs_play wholePurge) hp (by decide +kernel)).1⟩

end Messq

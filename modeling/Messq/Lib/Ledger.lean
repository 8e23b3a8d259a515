import Mathlib

/-! # Delivery ledgers

One consumer of a numbered log: a cursor below which every position is decided, and a pending set of slots below
the cursor. Handing a position out raises its attempt count; the epoch grows when the consumer is moved. `Ledger.Step`
lists what can happen to a ledger, and the rest of the file says what every such step keeps: the pending set stays
below the cursor (`Step.sound`), everything handed out stays behind the positions never handed out
(`Step.ordered`, `Step.behind`), a position that has left stays gone (`Step.gone`), and no hand-out repeats the
position, attempt and epoch of an earlier one (`Step.spent`, `Spent.fresh`). -/

namespace Messq.Lib

variable {e low n q start N : ℤ} {past : ℤ → Prop}

/-- A pending position. -/
structure Slot where
  attempts : ℤ
  epoch : ℤ
  ready : Bool
  /-- When a ready position may be handed out. -/
  due : ℤ

variable {t u t' : Slot}

structure Ledger where
  /-- The next position to decide. -/
  cursor : ℤ
  /-- The next position of the log. -/
  head : ℤ
  epoch : ℤ
  /-- How often a position may be handed out; not positive means any number of times. -/
  limit : ℤ
  slot : ℤ → Option Slot
  /-- The stored positions the consumer asks for. -/
  wanted : ℤ → Prop

namespace Ledger

/-! ## Moves -/

/-- Slots are touched or leave for a reason in `done`; attempts and epochs stay. -/
structure Quiet (l : Ledger) (done : ℤ → Prop) (l' : Ledger) : Prop where
  cursor : l'.cursor = l.cursor
  epoch : l'.epoch = l.epoch
  limit : l'.limit = l.limit
  head : l.head ≤ l'.head
  kept : ∀ q t', l'.slot q = some t' → ∃ t, l.slot q = some t ∧ t'.attempts = t.attempts ∧ t'.epoch = t.epoch ∧
    (t.attempts = 0 → t.ready = true → t' = t)
  dropped : ∀ q, l.slot q ≠ none → l'.slot q = none → done q
  wanted : ∀ q, l'.wanted q → l.wanted q ∨ l.head ≤ q

/-- A slot at the limit does not become ready again. -/
def Bounded (l l' : Ledger) : Prop :=
  ∀ q t t', l.slot q = some t → l'.slot q = some t' → t.ready = false → t'.ready = true →
    ¬ (0 < l.limit ∧ l.limit ≤ t.attempts)

/-- Positions are removed by hand; the cursor may move forward and the epoch may grow. -/
structure Purge (l l' : Ledger) : Prop where
  cursor : l.cursor ≤ l'.cursor
  cursor_le : l.cursor ≤ l.head → l'.cursor ≤ l'.head
  head : l'.head = l.head
  epoch : l'.epoch = l.epoch ∨ l'.epoch = l.epoch + 1
  limit : l'.limit = l.limit
  kept : ∀ q t, l'.slot q = some t → l.slot q = some t

/-- The cursor advances and every wanted position it passes gets a fresh slot. -/
structure TopUp (l l' : Ledger) : Prop where
  cursor : l.cursor ≤ l'.cursor
  cursor_le : l'.cursor ≤ l'.head
  head : l'.head = l.head
  epoch : l'.epoch = l.epoch
  limit : l'.limit = l.limit
  wanted : l'.wanted = l.wanted
  kept : ∀ q t, l.slot q = some t → l'.slot q = some t
  fresh : ∀ q t, l'.slot q = some t →
    l.slot q = some t ∨ (l.cursor ≤ q ∧ q < l'.cursor ∧ t = ⟨0, l.epoch, true, 0⟩)
  covered : ∀ q, l.cursor ≤ q → q < l'.cursor → l.wanted q → l'.slot q ≠ none

/-- The positions in `S`, all of them due at `now`, are handed out. -/
structure Claim (l : Ledger) (now : ℤ) (S : ℤ → Prop) (l' : Ledger) : Prop where
  cursor : l'.cursor = l.cursor
  head : l'.head = l.head
  epoch : l'.epoch = l.epoch
  limit : l'.limit = l.limit
  wanted : l'.wanted = l.wanted
  taken : ∀ q, S q → ∃ t due, l.slot q = some t ∧ t.ready = true ∧ t.due ≤ now ∧
    l'.slot q = some ⟨t.attempts + 1, t.epoch, false, due⟩
  kept : ∀ q, ¬ S q → l'.slot q = l.slot q

/-- The never handed out slots from `low` on are dropped and the cursor moves back to `low`. -/
structure Shrink (l : Ledger) (low : ℤ) (l' : Ledger) : Prop where
  cursor : l'.cursor = low
  head : l'.head = l.head
  epoch : l'.epoch = l.epoch
  limit : l'.limit = l.limit
  wanted : l'.wanted = l.wanted
  target : ∃ t, l.slot low = some t ∧ t.attempts = 0
  kept : ∀ q t, l'.slot q = some t → l.slot q = some t ∧ (t.attempts = 0 → q < low)
  dropped : ∀ q t, l.slot q = some t → l'.slot q = none → t.attempts = 0 ∧ low ≤ q

/-- Only what the consumer asks for changes. -/
structure Retune (l l' : Ledger) : Prop where
  cursor : l'.cursor = l.cursor
  head : l'.head = l.head
  epoch : l'.epoch = l.epoch
  slot : l'.slot = l.slot

/-- Everything pending is dropped, the cursor is put somewhere and the epoch grows. -/
structure Seek (l l' : Ledger) : Prop where
  cursor_pos : 1 ≤ l'.cursor
  cursor_le : l'.cursor ≤ l'.head
  epoch : l'.epoch = l.epoch + 1
  slot : ∀ q, l'.slot q = none

/-- What a step does, as seen from outside. -/
inductive Action
  | quiet (done : ℤ → Prop)
  | reclaim
  | purge
  | fetch (now : ℤ) (S : ℤ → Prop)
  | patch
  | seek

inductive Step : Ledger → Action → Ledger → Prop
  | quiet {l l' : Ledger} {done : ℤ → Prop} : Quiet l done l' → Bounded l l' → Step l (.quiet done) l'
  | reclaim {l l' : Ledger} : Quiet l (fun _ => False) l' → Step l .reclaim l'
  | purge {l l' : Ledger} : Purge l l' → Step l .purge l'
  | fetch {l m l' : Ledger} {now : ℤ} {S : ℤ → Prop} : TopUp l m → Claim m now S l' → Step l (.fetch now S) l'
  | patch {l m l' : Ledger} : (l = m ∨ ∃ low, Shrink l low m) → Retune m l' → Step l .patch l'
  | seek {l l' : Ledger} : Seek l l' → Step l .seek l'

/-- Nothing happened. -/
theorem Step.refl (l : Ledger) (done : ℤ → Prop) : Step l (.quiet done) l := by
  refine .quiet ⟨rfl, rfl, rfl, Int.le_refl _, fun q t h => ⟨t, h, rfl, rfl, fun _ _ => rfl⟩, ?_, fun _ h => .inl h⟩ ?_
  · intro q h h'
    exact absurd h' h
  · intro q t t' h h' hr hr'
    rw [h] at h'
    cases h'
    rw [hr] at hr'
    cases hr'

/-! ## The pending set lies within the log -/

structure Sound (l : Ledger) : Prop where
  cursor_pos : 1 ≤ l.cursor
  cursor_le : l.cursor ≤ l.head
  range : ∀ q t, l.slot q = some t → 1 ≤ q ∧ q < l.head
  attempts : ∀ q t, l.slot q = some t → 0 ≤ t.attempts
  fresh : ∀ q t, l.slot q = some t → t.attempts = 0 → t.ready = true ∧ t.due = 0 ∧ q < l.cursor

variable {l l' m : Ledger} {S done : ℤ → Prop} {now : ℤ} {a : Action}

theorem Quiet.sound (h : Quiet l done l') (hs : l.Sound) : l'.Sound := by
  refine ⟨h.cursor ▸ hs.cursor_pos, ?_, ?_, ?_, ?_⟩
  · rw [h.cursor]; exact hs.cursor_le.trans h.head
  · intro q t' ht'
    obtain ⟨t, ht, -⟩ := h.kept q t' ht'
    exact ⟨(hs.range q t ht).1, (hs.range q t ht).2.trans_le h.head⟩
  · intro q t' ht'
    obtain ⟨t, ht, ha, -⟩ := h.kept q t' ht'
    rw [ha]; exact hs.attempts q t ht
  · intro q t' ht' h0
    obtain ⟨t, ht, ha, -, hf⟩ := h.kept q t' ht'
    rw [ha] at h0
    obtain ⟨hr, hd, hq⟩ := hs.fresh q t ht h0
    rw [hf h0 hr, h.cursor]
    exact ⟨hr, hd, hq⟩

theorem Purge.sound (h : Purge l l') (hs : l.Sound) : l'.Sound where
  cursor_pos := hs.cursor_pos.trans h.cursor
  cursor_le := h.cursor_le hs.cursor_le
  range q t ht := h.head ▸ hs.range q t (h.kept q t ht)
  attempts q t ht := hs.attempts q t (h.kept q t ht)
  fresh q t ht h0 := by
    obtain ⟨hr, hd, hq⟩ := hs.fresh q t (h.kept q t ht) h0
    exact ⟨hr, hd, hq.trans_le h.cursor⟩

theorem TopUp.sound (h : TopUp l l') (hs : l.Sound) : l'.Sound := by
  refine ⟨hs.cursor_pos.trans h.cursor, h.cursor_le, ?_, ?_, ?_⟩
  · intro q t ht
    rcases h.fresh q t ht with ht | ⟨hc, hq, -⟩
    · exact h.head ▸ hs.range q t ht
    · exact ⟨hs.cursor_pos.trans hc, hq.trans_le h.cursor_le⟩
  · intro q t ht
    rcases h.fresh q t ht with ht | ⟨-, -, rfl⟩
    · exact hs.attempts q t ht
    · exact Int.le_refl _
  · intro q t ht h0
    rcases h.fresh q t ht with ht | ⟨-, hq, rfl⟩
    · obtain ⟨hr, hd, hq⟩ := hs.fresh q t ht h0
      exact ⟨hr, hd, hq.trans_le h.cursor⟩
    · exact ⟨rfl, rfl, hq⟩

theorem Claim.cases (h : Claim l now S l') (ht' : l'.slot q = some t') :
    (S q ∧ ∃ t due, l.slot q = some t ∧ t.ready = true ∧ t.due ≤ now ∧
        t' = ⟨t.attempts + 1, t.epoch, false, due⟩) ∨ (¬ S q ∧ l.slot q = some t') := by
  by_cases hq : S q
  · obtain ⟨t, due, ht, hr, hd, ht''⟩ := h.taken q hq
    rw [ht'] at ht''
    exact .inl ⟨hq, t, due, ht, hr, hd, Option.some.inj ht''⟩
  · exact .inr ⟨hq, h.kept q hq ▸ ht'⟩

/-- A claimed slot was a slot before, and one that is fresh afterwards was not claimed. -/
theorem Claim.before (h : Claim l now S l') (hs : l.Sound) (ht' : l'.slot q = some t') :
    (∃ t, l.slot q = some t) ∧ 0 ≤ t'.attempts ∧ (t'.attempts = 0 → l.slot q = some t') := by
  rcases h.cases ht' with ⟨-, t, due, ht, -, -, rfl⟩ | ⟨-, ht⟩
  · have := hs.attempts q t ht
    refine ⟨⟨t, ht⟩, ?_, fun h0 => ?_⟩
    · show 0 ≤ t.attempts + 1
      omega
    · have h0 : t.attempts + 1 = 0 := h0
      omega
  · exact ⟨⟨t', ht⟩, hs.attempts q t' ht, fun _ => ht⟩

theorem Claim.sound (h : Claim l now S l') (hs : l.Sound) : l'.Sound where
  cursor_pos := h.cursor ▸ hs.cursor_pos
  cursor_le := by rw [h.cursor, h.head]; exact hs.cursor_le
  range q t' ht' := by
    obtain ⟨⟨t, ht⟩, -⟩ := h.before hs ht'
    rw [h.head]; exact hs.range q t ht
  attempts q t' ht' := (h.before hs ht').2.1
  fresh q t' ht' h0 := h.cursor ▸ hs.fresh q t' ((h.before hs ht').2.2 h0) h0

theorem Shrink.sound (h : Shrink l low l') (hs : l.Sound) : l'.Sound := by
  obtain ⟨t₀, ht₀, -⟩ := h.target
  obtain ⟨hpos, hlt⟩ := hs.range low t₀ ht₀
  exact {
    cursor_pos := h.cursor ▸ hpos
    cursor_le := by rw [h.cursor, h.head]; exact hlt.le
    range := fun q t ht => h.head ▸ hs.range q t (h.kept q t ht).1
    attempts := fun q t ht => hs.attempts q t (h.kept q t ht).1
    fresh := fun q t ht h0 => by
      obtain ⟨ht, hq⟩ := h.kept q t ht
      obtain ⟨hr, hd, -⟩ := hs.fresh q t ht h0
      exact ⟨hr, hd, h.cursor ▸ hq h0⟩ }

theorem Retune.sound (h : Retune l l') (hs : l.Sound) : l'.Sound := by
  obtain ⟨hc, hh, -, hslot⟩ := h
  exact ⟨hc ▸ hs.cursor_pos, by rw [hc, hh]; exact hs.cursor_le, by rw [hslot, hh]; exact hs.range,
    by rw [hslot]; exact hs.attempts, by rw [hslot, hc]; exact hs.fresh⟩

/-- A soundness-preserving first half of a patch. -/
theorem shrunk_sound (h : l = m ∨ ∃ low, Shrink l low m) (hs : l.Sound) : m.Sound := by
  rcases h with rfl | ⟨low, h⟩
  · exact hs
  · exact h.sound hs

theorem Step.sound (h : Step l a l') (hs : l.Sound) : l'.Sound := by
  cases h with
  | quiet h _ => exact h.sound hs
  | reclaim h => exact h.sound hs
  | purge h => exact h.sound hs
  | fetch h₁ h₂ => exact h₂.sound (h₁.sound hs)
  | patch h₁ h₂ => exact h₂.sound (shrunk_sound h₁ hs)
  | seek h =>
    have hn : ∀ {P : Prop} (q : ℤ) (t : Slot), l'.slot q = some t → P := by
      intro P q t ht
      rw [h.slot q] at ht
      cases ht
    exact ⟨h.cursor_pos, h.cursor_le, fun q t => hn q t, fun q t => hn q t, fun q t => hn q t⟩

/-! ## What was handed out stays behind what was not -/

/-- Every position that is undecided or was never handed out lies above `q`. -/
def Behind (l : Ledger) (q : ℤ) : Prop :=
  q < l.cursor ∧ ∀ p t, l.slot p = some t → t.attempts = 0 → q < p

/-- The pending set is below the cursor, and in it what was handed out is below what was not. -/
structure Ordered (l : Ledger) : Prop where
  below : ∀ q t, l.slot q = some t → q < l.cursor
  split : ∀ q t, l.slot q = some t → t.attempts ≠ 0 → ∀ p u, l.slot p = some u → u.attempts = 0 → q < p

theorem ordered_of_empty (h : ∀ q, l.slot q = none) : l.Ordered :=
  ⟨fun q t ht => by simp [h q] at ht, fun q t ht => by simp [h q] at ht⟩

theorem Ordered.behind (h : l.Ordered) (ht : l.slot q = some t) (h0 : t.attempts ≠ 0) :
    l.Behind q := ⟨h.below q t ht, h.split q t ht h0⟩

/-- After handing out `S`, no fresh slot lies below a position handed out for the first time. -/
def Prompt (S : ℤ → Prop) (l' : Ledger) : Prop :=
  ∀ q u p t, S q → l'.slot q = some u → u.attempts = 1 → l'.slot p = some t → t.attempts = 0 → q < p

/-- Fresh slots that appear at or above the old cursor keep a position behind. -/
theorem Behind.mono (h : l.Behind q) (hc : q < l'.cursor)
    (hf : ∀ p t', l'.slot p = some t' → t'.attempts = 0 → (∃ t, l.slot p = some t ∧ t.attempts = 0) ∨ l.cursor ≤ p) :
    l'.Behind q := by
  refine ⟨hc, fun p t' ht' h0 => ?_⟩
  rcases hf p t' ht' h0 with ⟨t, ht, h0⟩ | hp
  · exact h.2 p t ht h0
  · exact h.1.trans_le hp

theorem TopUp.behind (h : TopUp l l') (hb : l.Behind q) : l'.Behind q :=
  hb.mono (hb.1.trans_le h.cursor) fun p t' ht' h0 =>
    (h.fresh p t' ht').imp (fun ht => ⟨t', ht, h0⟩) fun hp => hp.1

theorem Claim.behind (h : Claim l now S l') (hs : l.Sound) (hb : l.Behind q) : l'.Behind q :=
  hb.mono (h.cursor ▸ hb.1) fun _ t' ht' h0 => .inl ⟨t', (h.before hs ht').2.2 h0, h0⟩

theorem Quiet.behind (h : Quiet l done l') (hb : l.Behind q) : l'.Behind q := by
  refine hb.mono (h.cursor ▸ hb.1) fun p t' ht' h0 => .inl ?_
  obtain ⟨t, ht, ha, -⟩ := h.kept p t' ht'
  exact ⟨t, ht, ha ▸ h0⟩

/-- The cursor moves back to a fresh slot, which lies above everything behind. -/
theorem Shrink.behind (h : Shrink l low l') (hb : l.Behind q) : l'.Behind q := by
  obtain ⟨t₀, ht₀, h0⟩ := h.target
  exact hb.mono (h.cursor ▸ hb.2 low t₀ ht₀ h0) fun p t' ht' h0 => .inl ⟨t', (h.kept p t' ht').1, h0⟩

theorem Retune.behind (h : Retune l l') (hb : l.Behind q) : l'.Behind q :=
  hb.mono (h.cursor ▸ hb.1) fun _ t' ht' h0 => .inl ⟨t', h.slot ▸ ht', h0⟩

/-- Only a seek brings back a position that is behind. -/
theorem Step.behind (h : Step l a l') (hs : l.Sound) (ha : a ≠ .seek) (hb : l.Behind q) : l'.Behind q := by
  cases h with
  | quiet h _ => exact h.behind hb
  | reclaim h => exact h.behind hb
  | purge h => exact hb.mono (hb.1.trans_le h.cursor) fun p t' ht' h0 => .inl ⟨t', h.kept p t' ht', h0⟩
  | fetch h₁ h₂ => exact h₂.behind (h₁.sound hs) (h₁.behind hb)
  | patch h₁ h₂ =>
    rcases h₁ with rfl | ⟨low, h₁⟩
    · exact h₂.behind hb
    · exact h₂.behind (h₁.behind hb)
  | seek h => exact absurd rfl ha

theorem Quiet.ordered (h : Quiet l done l') (ho : l.Ordered) : l'.Ordered := by
  constructor
  · intro q t' ht'
    obtain ⟨t, ht, -⟩ := h.kept q t' ht'
    rw [h.cursor]; exact ho.below q t ht
  · intro q t' ht' h0 p u' hu' hu0
    obtain ⟨t, ht, ha, -⟩ := h.kept q t' ht'
    obtain ⟨u, hu, hb, -⟩ := h.kept p u' hu'
    exact ho.split q t ht (ha ▸ h0) p u hu (hb ▸ hu0)

theorem TopUp.ordered (h : TopUp l l') (ho : l.Ordered) : l'.Ordered := by
  constructor
  · intro q t ht
    rcases h.fresh q t ht with ht | ⟨-, hq, -⟩
    · exact (ho.below q t ht).trans_le h.cursor
    · exact hq
  · intro q t ht h0 p u hu hu0
    rcases h.fresh q t ht with ht | ⟨-, -, rfl⟩
    · rcases h.fresh p u hu with hu | ⟨hp, -, -⟩
      · exact ho.split q t ht h0 p u hu hu0
      · exact (ho.below q t ht).trans_le hp
    · exact absurd rfl h0

theorem Claim.ordered (h : Claim l now S l') (hs : l.Sound) (ho : l.Ordered) (hp : Prompt S l') : l'.Ordered := by
  constructor
  · intro q t' ht'
    obtain ⟨⟨t, ht⟩, -⟩ := h.before hs ht'
    rw [h.cursor]; exact ho.below q t ht
  · intro q t' ht' h0 p u' hu' hu0
    have hu := (h.before hs hu').2.2 hu0
    rcases h.cases ht' with ⟨hq, t, due, ht, -, -, rfl⟩ | ⟨-, ht⟩
    · by_cases hz : t.attempts = 0
      · exact hp q _ p u' hq ht' (by simp [hz]) hu' hu0
      · exact ho.split q t ht hz p u' hu hu0
    · exact ho.split q t' ht h0 p u' hu hu0

theorem Shrink.ordered (h : Shrink l low l') (ho : l.Ordered) : l'.Ordered := by
  obtain ⟨t₀, ht₀, hz⟩ := h.target
  constructor
  · intro q t ht
    obtain ⟨ht, hq⟩ := h.kept q t ht
    rw [h.cursor]
    by_cases h0 : t.attempts = 0
    · exact hq h0
    · exact ho.split q t ht h0 low t₀ ht₀ hz
  · intro q t ht h0 p u hu hu0
    exact ho.split q t (h.kept q t ht).1 h0 p u (h.kept p u hu).1 hu0

theorem Retune.ordered (h : Retune l l') (ho : l.Ordered) : l'.Ordered := by
  obtain ⟨hc, -, -, hslot⟩ := h
  exact ⟨by rw [hslot, hc]; exact ho.below, by rw [hslot]; exact ho.split⟩

theorem Step.ordered (h : Step l a l') (hs : l.Sound) (ho : l.Ordered)
    (hp : ∀ now S, a = .fetch now S → Prompt S l') : l'.Ordered := by
  cases h with
  | quiet h _ => exact h.ordered ho
  | reclaim h => exact h.ordered ho
  | purge h =>
    exact ⟨fun q t ht => (ho.below q t (h.kept q t ht)).trans_le h.cursor,
      fun q t ht h0 p u hu => ho.split q t (h.kept q t ht) h0 p u (h.kept p u hu)⟩
  | fetch h₁ h₂ => exact h₂.ordered (h₁.sound hs) (h₁.ordered ho) (hp _ _ rfl)
  | patch h₁ h₂ =>
    rcases h₁ with rfl | ⟨low, h₁⟩
    · exact h₂.ordered ho
    · exact h₂.ordered (h₁.ordered ho)
  | seek h => exact ordered_of_empty h.slot

/-- Only a seek and a patch move the cursor back. -/
theorem Step.cursor (h : Step l a l') (hk : a ≠ .seek) (hp : a ≠ .patch) : l.cursor ≤ l'.cursor := by
  cases h with
  | quiet h _ => exact h.cursor.ge
  | reclaim h => exact h.cursor.ge
  | purge h => exact h.cursor
  | fetch h₁ h₂ => exact h₁.cursor.trans_eq h₂.cursor.symm
  | patch _ _ => exact absurd rfl hp
  | seek _ => exact absurd rfl hk

/-! ## What left stays gone -/

/-- A position that is behind and no longer pending. -/
def Gone (l : Ledger) (q : ℤ) : Prop := l.Behind q ∧ l.slot q = none

/-- A pending position below the cursor was pending before. -/
theorem TopUp.old (h : TopUp l l') (hq : q < l.cursor) : l'.slot q = l.slot q := by
  cases ht : l.slot q with
  | some t => exact h.kept q t ht
  | none =>
    cases ht' : l'.slot q with
    | none => rfl
    | some t =>
      rcases h.fresh q t ht' with h' | ⟨hc, -⟩
      · rw [ht] at h'; cases h'
      · exact absurd hq (not_lt.mpr hc)

/-- A slot below the cursor was there before, with no more attempts. -/
theorem Step.old (h : Step l a l') (hq : q < l.cursor) (ht' : l'.slot q = some t') :
    ∃ t, l.slot q = some t ∧ t.attempts ≤ t'.attempts := by
  cases h with
  | quiet h _ =>
    obtain ⟨t, ht, ha, -⟩ := h.kept q t' ht'
    exact ⟨t, ht, ha.ge⟩
  | reclaim h =>
    obtain ⟨t, ht, ha, -⟩ := h.kept q t' ht'
    exact ⟨t, ht, ha.ge⟩
  | purge h => exact ⟨t', h.kept q t' ht', le_rfl⟩
  | fetch h₁ h₂ =>
    rw [← h₁.old hq]
    rcases h₂.cases ht' with ⟨-, t, due, ht, -, -, rfl⟩ | ⟨-, ht⟩
    · exact ⟨t, ht, Int.le_add_one le_rfl⟩
    · exact ⟨t', ht, le_rfl⟩
  | patch h₁ h₂ =>
    rw [h₂.slot] at ht'
    rcases h₁ with rfl | ⟨low, h₁⟩
    · exact ⟨t', ht', le_rfl⟩
    · exact ⟨t', (h₁.kept q t' ht').1, le_rfl⟩
  | seek h => simp [h.slot q] at ht'

theorem Step.gone (h : Step l a l') (hs : l.Sound) (ha : a ≠ .seek) (hg : l.Gone q) : l'.Gone q := by
  refine ⟨h.behind hs ha hg.1, Option.eq_none_iff_forall_ne_some.mpr fun t' ht' => ?_⟩
  obtain ⟨t, ht, -⟩ := h.old hg.1.1 ht'
  rw [hg.2] at ht
  cases ht

/-- What is handed out was ready, or has just been admitted, and counts one attempt more. -/
theorem Step.claimed (h : Step l (.fetch now S) l') (hq : S q) :
    ∃ t u, l'.slot q = some u ∧ u.attempts = t.attempts + 1 ∧ t.ready = true ∧ t.due ≤ now ∧
      (l.slot q = some t ∨ (l.cursor ≤ q ∧ t.attempts = 0)) := by
  cases h with
  | fetch h₁ h₂ =>
    obtain ⟨t, due, ht, hr, hd, ht'⟩ := h₂.taken q hq
    refine ⟨t, _, ht', rfl, hr, hd, ?_⟩
    rcases h₁.fresh q t ht with ht | ⟨hc, -, rfl⟩
    · exact .inl ht
    · exact .inr ⟨hc, rfl⟩

theorem Step.not_claimed (h : Step l (.fetch now S) l') (hg : l.Gone q) : ¬ S q := by
  intro hq
  obtain ⟨t, -, -, -, -, -, ht | ⟨hc, -⟩⟩ := h.claimed hq
  · rw [hg.2] at ht
    cases ht
  · exact absurd hg.1.1 (not_lt.mpr hc)

/-- A position just handed out is behind. -/
theorem Step.claimed_behind (h : Step l (.fetch now S) l') (hs : l.Sound) (ho : l'.Ordered) (hq : S q) :
    l'.Behind q := by
  obtain ⟨t, u, hu, ha, -, -, ht⟩ := h.claimed hq
  have : 0 ≤ t.attempts := by
    rcases ht with ht | ⟨-, h0⟩
    · exact hs.attempts q t ht
    · exact h0.ge
  exact ho.behind hu (by omega)

/-! ## No hand-out repeats an earlier one -/

theorem Step.epoch (h : Step l a l') : l.epoch ≤ l'.epoch := by
  cases h with
  | quiet h _ => exact h.epoch.ge
  | reclaim h => exact h.epoch.ge
  | purge h =>
    rcases h.epoch with h | h
    · exact h.ge
    · rw [h]; exact Int.le_add_one le_rfl
  | fetch h₁ h₂ => exact (h₂.epoch.trans h₁.epoch).ge
  | patch h₁ h₂ =>
    rcases h₁ with rfl | ⟨low, h₁⟩
    · exact h₂.epoch.ge
    · exact (h₂.epoch.trans h₁.epoch).ge
  | seek h => rw [h.epoch]; exact Int.le_add_one le_rfl

/-- Only a seek and a purge begin an epoch. -/
theorem Step.epoch_eq (h : Step l a l') (hk : a ≠ .seek) (hp : a ≠ .purge) : l'.epoch = l.epoch := by
  cases h with
  | quiet h _ => exact h.epoch
  | reclaim h => exact h.epoch
  | purge => exact absurd rfl hp
  | fetch h₁ h₂ => exact h₂.epoch.trans h₁.epoch
  | patch h₁ h₂ =>
    rcases h₁ with rfl | ⟨low, h₁⟩
    · exact h₂.epoch
    · exact h₂.epoch.trans h₁.epoch
  | seek => exact absurd rfl hk

/-- The hand-out of `q` as attempt `n` under epoch `e` cannot happen any more. -/
def Spent (l : Ledger) (q n e : ℤ) : Prop :=
  e < l.epoch ∨ (e = l.epoch ∧ l.Behind q ∧ ∀ t, l.slot q = some t → n ≤ t.attempts)

theorem Step.spent (h : Step l a l') (hs : l.Sound) (hp : l.Spent q n e) : l'.Spent q n e := by
  have he := h.epoch
  rcases hp with hp | ⟨rfl, hb, hn⟩
  · exact .inl (hp.trans_le he)
  rcases he.lt_or_eq with he | he
  · exact .inl he
  refine .inr ⟨he, h.behind hs ?_ hb, fun t' ht' => ?_⟩
  · rintro rfl
    cases h with
    | seek h => rw [h.epoch] at he; omega
  · obtain ⟨t, ht, hle⟩ := h.old hb.1 ht'
    exact (hn t ht).trans hle

/-- **Freshness.** What is spent is not handed out. -/
theorem Spent.fresh (hp : l.Spent q n e) (h : Step l (.fetch now S) l') (hq : S q) (hu : l'.slot q = some u) :
    ¬ (n = u.attempts ∧ e = l.epoch) := by
  rintro ⟨rfl, rfl⟩
  rcases hp with hp | ⟨-, hb, hn⟩
  · exact lt_irrefl _ hp
  · obtain ⟨t, u', hu', ha, -, -, ht | ⟨hc, -⟩⟩ := h.claimed hq
    · rw [hu] at hu'
      cases hu'
      have := hn t ht
      omega
    · exact absurd hb.1 (not_lt.mpr hc)

/-- What has just been handed out is spent. -/
theorem Step.claimed_spent (h : Step l (.fetch now S) l') (hs : l.Sound) (ho : l'.Ordered) (hq : S q)
    (hu : l'.slot q = some u) : l'.Spent q u.attempts l'.epoch := by
  refine .inr ⟨rfl, h.claimed_behind hs ho hq, fun t ht => ?_⟩
  rw [hu] at ht
  cases ht
  exact le_rfl

/-! ## Epochs of slots -/

/-- A slot has the epoch it had before, or it was admitted past the cursor under the current one. -/
theorem Step.dates (h : Step l a l') (ht' : l'.slot q = some t') :
    (∃ t, l.slot q = some t ∧ t'.epoch = t.epoch) ∨ (l.cursor ≤ q ∧ t'.epoch = l.epoch) := by
  cases h with
  | quiet h _ =>
    obtain ⟨t, ht, -, he, -⟩ := h.kept q t' ht'
    exact .inl ⟨t, ht, he⟩
  | reclaim h =>
    obtain ⟨t, ht, -, he, -⟩ := h.kept q t' ht'
    exact .inl ⟨t, ht, he⟩
  | purge h => exact .inl ⟨t', h.kept q t' ht', rfl⟩
  | @fetch m _ _ _ h₁ h₂ =>
    have hm : ∃ t, m.slot q = some t ∧ t'.epoch = t.epoch := by
      rcases h₂.cases ht' with ⟨-, t, due, ht, -, -, rfl⟩ | ⟨-, ht⟩
      · exact ⟨t, ht, rfl⟩
      · exact ⟨t', ht, rfl⟩
    obtain ⟨t, ht, he⟩ := hm
    rcases h₁.fresh q t ht with ht | ⟨hc, -, rfl⟩
    · exact .inl ⟨t, ht, he⟩
    · exact .inr ⟨hc, he⟩
  | patch h₁ h₂ =>
    rw [h₂.slot] at ht'
    rcases h₁ with rfl | ⟨low, h₁⟩
    · exact .inl ⟨t', ht', rfl⟩
    · exact .inl ⟨t', (h₁.kept q t' ht').1, rfl⟩
  | seek h => simp [h.slot q] at ht'

def Fenced (l : Ledger) : Prop := ∀ q t, l.slot q = some t → t.epoch = l.epoch

/-- Only a purge that moves the epoch and leaves a slot behind unfences a ledger. -/
theorem Step.fenced (h : Step l a l') (hf : l.Fenced)
    (hp : a = .purge → l'.epoch = l.epoch ∨ ∀ q, l'.slot q = none) : l'.Fenced := by
  have he : l'.epoch = l.epoch ∨ ∀ q, l'.slot q = none := by
    cases h with
    | quiet h _ => exact .inl h.epoch
    | reclaim h => exact .inl h.epoch
    | purge => exact hp rfl
    | fetch h₁ h₂ => exact .inl (h₂.epoch.trans h₁.epoch)
    | patch h₁ h₂ =>
      refine .inl (h₂.epoch.trans ?_)
      rcases h₁ with rfl | ⟨low, h₁⟩
      · rfl
      · exact h₁.epoch
    | seek h => exact .inr h.slot
  intro q t' ht'
  rcases he with he | hn
  · rw [he]
    rcases h.dates ht' with ⟨t, ht, heq⟩ | ⟨-, heq⟩
    · exact heq.trans (hf q t ht)
    · exact heq
  · simp [hn q] at ht'

/-! ## No hand-out follows an end -/

/-- Slots are from epochs that have been, from `low` on. -/
def Dated (low : ℤ) (l : Ledger) : Prop := ∀ q t, l.slot q = some t → low ≤ t.epoch ∧ t.epoch ≤ l.epoch

theorem Step.dated (h : Step l a l') (hlow : low ≤ l.epoch) (hd : Dated low l) : Dated low l' := by
  intro q t' ht'
  have he := h.epoch
  rcases h.dates ht' with ⟨t, ht, heq⟩ | ⟨-, heq⟩
  · have := hd q t ht
    omega
  · omega

/-- The hand-outs of `q` under the epoch `e` are over: what is pending at `q` is from another epoch, and under the
epoch itself `q` is gone. -/
structure Ended (l : Ledger) (q e : ℤ) : Prop where
  le : e ≤ l.epoch
  slot : ∀ t, l.slot q = some t → t.epoch ≠ e
  gone : e = l.epoch → l.Gone q

theorem Step.ended (h : Step l a l') (hs : l.Sound) (hd : l.Ended q e) : l'.Ended q e := by
  have he := h.epoch
  have hle := hd.le
  refine ⟨hle.trans he, fun t' ht' => ?_, fun heq => ?_⟩
  · rcases h.dates ht' with ⟨t, ht, heq⟩ | ⟨hc, heq⟩
    · rw [heq]
      exact hd.slot t ht
    · rintro rfl
      exact absurd (hd.gone heq).1.1 (not_lt.mpr hc)
  · refine h.gone hs ?_ (hd.gone (by omega))
    rintro rfl
    cases h with
    | seek h =>
      have := h.epoch
      omega

/-- A position that was handed out and has just left is done with under its epoch. -/
theorem Step.ends (h : Step l a l') (hs : l.Sound) (ho : l.Ordered) (hd : Dated low l) (ha : a ≠ .seek)
    (ht : l.slot q = some t) (h0 : t.attempts ≠ 0) (hn : l'.slot q = none) : l'.Ended q t.epoch := by
  refine ⟨(hd q t ht).2.trans h.epoch, fun t' ht' => ?_, fun _ => ⟨h.behind hs ha (ho.behind ht h0), hn⟩⟩
  rw [hn] at ht'
  cases ht'

/-! ## No wanted position is lost -/

/-- Every wanted position from `start` on is undecided, pending, or done with. -/
def Covers (l : Ledger) (start : ℤ) (done : ℤ → Prop) : Prop :=
  ∀ q, start ≤ q → l.wanted q → l.cursor ≤ q ∨ l.slot q ≠ none ∨ done q

theorem Quiet.covers (h : Quiet l done l') (hs : l.Sound) (hc : l.Covers start past) :
    l'.Covers start fun q => past q ∨ done q := by
  intro q hq hw
  rw [h.cursor]
  rcases h.wanted q hw with hw | hh
  · rcases hc q hq hw with hc | hn | hp
    · exact .inl hc
    · by_cases hn' : l'.slot q = none
      · exact .inr (.inr (.inr (h.dropped q hn hn')))
      · exact .inr (.inl hn')
    · exact .inr (.inr (.inl hp))
  · exact .inl (hs.cursor_le.trans hh)

theorem TopUp.covers (h : TopUp l l') (hc : l.Covers start past) : l'.Covers start past := by
  intro q hq hw
  rw [h.wanted] at hw
  rcases hc q hq hw with hc | hn | hp
  · by_cases hq' : l'.cursor ≤ q
    · exact .inl hq'
    · exact .inr (.inl (h.covered q hc (not_le.mp hq') hw))
  · obtain ⟨t, ht⟩ := Option.ne_none_iff_exists'.mp hn
    exact .inr (.inl (by simp [h.kept q t ht]))
  · exact .inr (.inr hp)

theorem Claim.covers (h : Claim l now S l') (hc : l.Covers start past) : l'.Covers start past := by
  intro q hq hw
  rw [h.wanted] at hw
  rw [h.cursor]
  refine (hc q hq hw).imp_right (Or.imp_left fun hn => ?_)
  by_cases hS : S q
  · obtain ⟨t, due, -, -, -, ht⟩ := h.taken q hS
    simp [ht]
  · rwa [h.kept q hS]

theorem Shrink.covers (h : Shrink l low l') (hs : l.Sound) (hc : l.Covers start past) : l'.Covers start past := by
  intro q hq hw
  rw [h.wanted] at hw
  rw [h.cursor]
  rcases hc q hq hw with hc | hn | hp
  · obtain ⟨t₀, ht₀, h0⟩ := h.target
    exact .inl ((hs.fresh low t₀ ht₀ h0).2.2.le.trans hc)
  · obtain ⟨t, ht⟩ := Option.ne_none_iff_exists'.mp hn
    by_cases hn' : l'.slot q = none
    · exact .inl (h.dropped q t ht hn').2
    · exact .inr (.inl hn')
  · exact .inr (.inr hp)

/-- The reasons for which a step lets wanted positions leave. -/
def Action.drops : Action → ℤ → Prop
  | .quiet done => done
  | _ => fun _ => False

/-- **No loss.** Short of a purge, a seek or a change of what is wanted, nothing wanted is lost. -/
theorem Step.covers (h : Step l a l') (hs : l.Sound) (hp : a ≠ .purge) (hk : a ≠ .seek)
    (hw : a = .patch → ∀ q, l'.wanted q → l.wanted q) (hc : l.Covers start past) :
    l'.Covers start fun q => past q ∨ a.drops q := by
  cases h with
  | quiet h _ => exact h.covers hs hc
  | reclaim h => exact h.covers hs hc
  | purge h => exact absurd rfl hp
  | fetch h₁ h₂ =>
    intro q hq hwq
    exact (h₂.covers (h₁.covers hc) q hq hwq).imp_right (Or.imp_right Or.inl)
  | @patch m _ h₁ h₂ =>
    intro q hq hwq
    have hm : m.Covers start past := by
      rcases h₁ with rfl | ⟨low, h₁⟩
      · exact hc
      · exact h₁.covers hs hc
    have hwm : m.wanted q := by
      have := hw rfl q hwq
      rcases h₁ with rfl | ⟨low, h₁⟩
      · exact this
      · rw [h₁.wanted]; exact this
    rw [h₂.cursor, h₂.slot]
    exact (hm q hq hwm).imp_right (Or.imp_right Or.inl)
  | seek h => exact absurd rfl hk

/-! ## The limit on hand-outs -/

/-- No slot was handed out more than `n` times. -/
def Within (n : ℤ) (l : Ledger) : Prop := ∀ q t, l.slot q = some t → t.attempts ≤ n

/-- A slot that is ready has a hand-out left. -/
def Spare (n : ℤ) (l : Ledger) : Prop := ∀ q t, l.slot q = some t → t.ready = true → t.attempts < n

/-- What a fetch at `now` could hand out has a hand-out left. -/
def SpareAt (n now : ℤ) (l : Ledger) : Prop :=
  ∀ q t, l.slot q = some t → t.ready = true → t.due ≤ now → t.attempts < n

theorem Spare.at (h : Spare n l) (now : ℤ) : SpareAt n now l := fun q t ht hr _ => h q t ht hr

theorem Step.within (h : Step l a l') (hn : 0 < n) (hw : Within n l) (hf : ∀ now S, a = .fetch now S →
      SpareAt n now l) :
    Within n l' := by
  intro q t' ht'
  cases h with
  | quiet h _ =>
    obtain ⟨t, ht, ha, -⟩ := h.kept q t' ht'
    rw [ha]; exact hw q t ht
  | reclaim h =>
    obtain ⟨t, ht, ha, -⟩ := h.kept q t' ht'
    rw [ha]; exact hw q t ht
  | purge h => exact hw q t' (h.kept q t' ht')
  | fetch h₁ h₂ =>
    rcases h₂.cases ht' with ⟨-, t, due, ht, hr, hd, rfl⟩ | ⟨-, ht⟩
    · rcases h₁.fresh q t ht with ht | ⟨-, -, rfl⟩
      · exact hf _ _ rfl q t ht hr hd
      · exact hn
    · rcases h₁.fresh q t' ht with ht | ⟨-, -, rfl⟩
      · exact hw q t' ht
      · exact hn.le
  | patch h₁ h₂ =>
    rw [h₂.slot] at ht'
    rcases h₁ with rfl | ⟨low, h₁⟩
    · exact hw q t' ht'
    · exact hw q t' (h₁.kept q t' ht').1
  | seek h => simp [h.slot q] at ht'

/-- Only a reclaim makes a slot without hand-outs left ready again. -/
theorem Step.spare (h : Step l a l') (hn : 0 < n) (hl : l.limit = n) (hs : Spare n l) (ha : a ≠ .reclaim) :
    Spare n l' := by
  intro q t' ht' hr'
  cases h with
  | quiet h hb =>
    obtain ⟨t, ht, hatt, -⟩ := h.kept q t' ht'
    rw [hatt]
    by_cases hr : t.ready = true
    · exact hs q t ht hr
    · have := hb q t t' ht ht' (by simpa using hr) hr'
      omega
  | reclaim h => exact absurd rfl ha
  | purge h => exact hs q t' (h.kept q t' ht') hr'
  | fetch h₁ h₂ =>
    rcases h₂.cases ht' with ⟨-, t, due, ht, hr, hd, rfl⟩ | ⟨-, ht⟩
    · cases hr'
    · rcases h₁.fresh q t' ht with ht | ⟨-, -, rfl⟩
      · exact hs q t' ht hr'
      · exact hn
  | patch h₁ h₂ =>
    rw [h₂.slot] at ht'
    rcases h₁ with rfl | ⟨low, h₁⟩
    · exact hs q t' ht' hr'
    · exact hs q t' (h₁.kept q t' ht').1 hr'
  | seek h => simp [h.slot q] at ht'

/-- A reclaim leaves a hand-out to what is ready if it left one to what was handed out. -/
theorem Step.spare_reclaim (h : Step l .reclaim l') (hs : Spare n l)
    (hr : ∀ q t, l.slot q = some t → t.ready = false → t.attempts < n) : Spare n l' := by
  intro q t' ht' _
  cases h with
  | reclaim h =>
    obtain ⟨t, ht, hatt, -⟩ := h.kept q t' ht'
    rw [hatt]
    cases hready : t.ready with
    | true => exact hs q t ht hready
    | false => exact hr q t ht hready

/-! ## Counting hand-outs -/

/-- `N` hand-outs of `q` under epoch `e`, none of them beyond the limit `n`. -/
structure Handed (n : ℤ) (l : Ledger) (q e N : ℤ) : Prop where
  nonneg : 0 ≤ N
  le : N ≤ n
  future : l.epoch < e → N = 0
  counted : e = l.epoch → ∀ t, l.slot q = some t → N ≤ t.attempts
  behind : e = l.epoch → N ≠ 0 → l.Behind q

theorem handed_zero (hn : 0 ≤ n) (hs : l.Sound) : Handed n l q e 0 :=
  ⟨le_rfl, hn, fun _ => rfl, fun _ t ht => hs.attempts q t ht, fun _ h => absurd rfl h⟩

/-- A step that does not hand `q` out under `e`. -/
theorem Step.handed_same (h : Step l a l') (hs : l.Sound) (hh : Handed n l q e N) : Handed n l' q e N := by
  have he := h.epoch
  -- an epoch not reached yet has no hand-outs
  have hnew : e = l'.epoch → e ≠ l.epoch → N = 0 := fun h' hne => hh.future (by omega)
  refine ⟨hh.nonneg, hh.le, fun hlt => hh.future (by omega), fun h' t' ht' => ?_, fun h' hN => ?_⟩
  · by_cases hz : N = 0
    · rw [hz]
      exact (h.sound hs).attempts q t' ht'
    · have heq : e = l.epoch := Classical.byContradiction fun hne => hz (hnew h' hne)
      obtain ⟨t, ht, hle⟩ := h.old (hh.behind heq hz).1 ht'
      exact (hh.counted heq t ht).trans hle
  · have heq : e = l.epoch := Classical.byContradiction fun hne => hN (hnew h' hne)
    refine h.behind hs ?_ (hh.behind heq hN)
    rintro rfl
    cases h with
    | seek h =>
      have := h.epoch
      omega

/-- A step that hands `q` out under the current epoch. -/
theorem Step.handed_claim (h : Step l (.fetch now S) l') (hs : l.Sound) (ho : l'.Ordered) (hw : Within n l') (hq : S q)
    (hh : Handed n l q l.epoch N) : Handed n l' q l.epoch (N + 1) := by
  have he : l'.epoch = l.epoch := by
    cases h with
    | fetch h₁ h₂ => exact h₂.epoch.trans h₁.epoch
  obtain ⟨t, u, hu, ha, -, -, ht⟩ := h.claimed hq
  have hN := hh.nonneg
  have hle : N ≤ t.attempts := by
    rcases ht with ht | ⟨hc, h0⟩
    · exact hh.counted rfl t ht
    · -- a position the cursor has not passed was not handed out
      have hz : N = 0 := Classical.byContradiction fun hz => absurd (hh.behind rfl hz).1 (not_lt.mpr hc)
      omega
  have hun := hw q u hu
  refine ⟨by omega, by omega, fun hlt => ?_, fun _ u' hu' => ?_, fun _ _ => h.claimed_behind hs ho hq⟩
  · omega
  · obtain rfl : u = u' := Option.some.inj (hu.symm.trans hu')
    omega

end Ledger

end Messq.Lib

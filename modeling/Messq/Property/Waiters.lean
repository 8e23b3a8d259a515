import Messq.Api.Waiters

/-! # The number of parked fetches

`total` is read and written outside the locks of the other shards, `ReleaseAll` stores zero whatever the calls around it
are doing, and a `Close` after it still subtracts. As long as `total` has room for every `Subscribe` that is past its
checks, `ReleaseAll` runs alone and no subscription it released is closed afterwards, `total` is the number of
registered waiters at quiescence and stays within its bounds (`waiters_counted`). -/

namespace Messq.Parking

open Lib

variable {key : Bytes × Bytes} {f : Flight} {id n : ℕ}

/-- The accounting of a state: the counter is within its bounds, and exact when no call is under way. -/
structure State.Accounted (s : State) : Prop where
  nonneg : 0 ≤ s.registry.total
  le_max : s.registry.total ≤ s.registry.max
  exact : s.flights = [] → s.registry.total = s.registry.waiters.length

def Flight.isAdmitted : Flight → Bool
  | .admitted _ => true
  | _ => false

def Flight.isUnlinked : Flight → Bool
  | .unlinked _ _ => true
  | _ => false

def Flight.isReleasing : Flight → Bool
  | .releasing _ => true
  | _ => false

/-- The identity of the waiter that is about to enter. -/
def Flight.entrant : Flight → Option ℕ
  | .admitted w => some w.id
  | _ => none

/-- `total` has room for every `Subscribe` past its checks. -/
def State.Roomy (s : State) : Prop := s.registry.total + s.flights.countP Flight.isAdmitted ≤ s.registry.max

instance (s : State) : Decidable s.Roomy := inferInstanceAs (Decidable (_ ≤ _))

/-- What a step has to find: a `Subscribe` no `ReleaseAll`, and it leaves room for all that are past their checks; a
first `Close` no `ReleaseAll`, and its subscription not released; a `ReleaseAll` no other call. -/
def calm (v : Lib.Visit State Act Unit) : Bool :=
  match v.act with
  | .subscribe _ _ => !v.pre.flights.any Flight.isReleasing && decide v.post.Roomy
  | .close id =>
    !v.pre.flights.any Flight.isReleasing && (!v.pre.registry.released.contains id || v.pre.closed.contains id)
  | .releaseAll => v.pre.flights.isEmpty
  | _ => true

/-! ## Invariants -/

/-- Identities: a waiter is registered once, and a subscription is registered, released, closing or closed. -/
structure State.Known (s : State) : Prop where
  nodup : (s.registry.waiters.map Waiter.id).Nodup
  old : ∀ i ∈ s.registry.waiters.map Waiter.id, i < s.minted
  fresh : ∀ w, Flight.admitted w ∈ s.flights → w.id < s.minted ∧ w.id ∉ s.registry.waiters.map Waiter.id
  apart : (s.flights.filterMap Flight.entrant).Nodup
  subs : ∀ p ∈ s.subs, p.1 ∈ s.registry.waiters.map Waiter.id ∨ p.1 ∈ s.registry.released ∨ s.closing p.1 = true ∨
    p.1 ∈ s.closed

/-- Where the registry stands: calls come and go, or `ReleaseAll` is alone at work. -/
inductive State.Phase (s : State) : Prop
  | busy (calm : s.flights.any Flight.isReleasing = false)
      (count : s.registry.total = s.registry.waiters.length + s.flights.countP Flight.isUnlinked)
      (room : s.Roomy)
  | releasing (n : ℕ) (alone : s.flights = [.releasing n]) (nonneg : 0 ≤ s.registry.total)
      (le_max : s.registry.total ≤ s.registry.max) (left : ∀ w ∈ s.registry.waiters, n ≤ w.shard)

theorem State.Phase.accounted {s : State} (h : s.Phase) : s.Accounted := by
  cases h with
  | busy calm count room =>
    unfold State.Roomy at room
    refine ⟨by omega, by omega, fun hf => ?_⟩
    simpa [hf] using count
  | releasing n alone nonneg le_max left => exact ⟨nonneg, le_max, fun hf => by simp [alone] at hf⟩

theorem shard_lt (w : Waiter) : w.shard < numShards := by
  unfold Waiter.shard shardOf numShards
  have h := UInt32.mod_lt (w.key.1.foldl (fun h c => (h ^^^ c.toUInt32) * 16777619) (2166136261 : UInt32))
    (show (0 : UInt32) < 64 by decide)
  exact h

theorem signal_ids (r : Registry) (p : Waiter → Bool) :
    (r.signal p).waiters.map Waiter.id = r.waiters.map Waiter.id := by
  simp only [Registry.signal, List.map_map]
  refine List.map_congr_left fun w _ => ?_
  simp only [Function.comp_apply]
  split <;> rfl

theorem signal_shards (r : Registry) (p : Waiter → Bool) :
    (r.signal p).waiters.map Waiter.shard = r.waiters.map Waiter.shard := by
  simp only [Registry.signal, List.map_map]
  refine List.map_congr_left fun w _ => ?_
  simp only [Function.comp_apply]
  split <;> rfl

/-- One waiter leaves. -/
theorem length_unlink {r : Registry} (hn : (r.waiters.map Waiter.id).Nodup) (hm : id ∈ r.waiters.map Waiter.id) :
    (r.unlink id).waiters.length + 1 = r.waiters.length := by
  have hcount : r.waiters.countP (fun w => w.id == id) = 1 := by
    have := List.count_eq_one_of_mem hn hm
    rwa [List.count, List.countP_map] at this
  have hlen := List.length_eq_countP_add_countP (l := r.waiters) fun w => w.id == id
  have hfilter : (r.unlink id).waiters.length = r.waiters.countP fun w => !(w.id == id) := by
    rw [Registry.unlink, List.countP_eq_length_filter]
    rfl
  have heq : (r.waiters.countP fun w => decide ¬ (w.id == id) = true) = r.waiters.countP fun w => !(w.id == id) :=
    List.countP_congr fun w _ => by simp
  omega

theorem unlink_subset (r : Registry) (id i : ℕ) (h : i ∈ (r.unlink id).waiters.map Waiter.id) :
    i ∈ r.waiters.map Waiter.id :=
  (List.filter_sublist.map _).subset h

/-! ## Steps -/

section Step

variable {s s' : State}

/-- A call under way other than `ReleaseAll` means that `ReleaseAll` is not. -/
theorem State.Phase.cases_of_mem (h : s.Phase) (hf : f ∈ s.flights) (hr : f.isReleasing = false) :
    s.flights.any Flight.isReleasing = false ∧
      s.registry.total = s.registry.waiters.length + s.flights.countP Flight.isUnlinked ∧ s.Roomy := by
  cases h with
  | busy calm count room => exact ⟨calm, count, room⟩
  | releasing n alone =>
    rw [alone, List.mem_singleton] at hf
    rw [hf] at hr
    cases hr

/-- What is left of the calls when one returns. -/
theorem countP_erase_flight {p : Flight → Bool} (hf : f ∈ s.flights) :
    (s.flights.erase f).countP p + (if p f then 1 else 0) = s.flights.countP p := by
  have hperm := (List.perm_cons_erase hf).countP_eq p
  rw [hperm, List.countP_cons]

theorem nodup_erase_flight (h : (s.flights.filterMap Flight.entrant).Nodup) :
    ((s.flights.erase f).filterMap Flight.entrant).Nodup := h.sublist (List.erase_sublist.filterMap _)

theorem any_erase (h : s.flights.any Flight.isReleasing = false) :
    (s.flights.erase f).any Flight.isReleasing = false := by
  rw [List.any_eq_false] at h ⊢
  exact fun x hx => h x (List.mem_of_mem_erase hx)

theorem State.closing_iff : s.closing id = true ↔ ∃ n, Flight.unlinked id n ∈ s.flights := by
  unfold State.closing
  rw [List.any_eq_true]
  constructor
  · rintro ⟨f, hf, h⟩
    cases f with
    | unlinked i n =>
      rw [beq_iff_eq] at h
      exact ⟨n, h ▸ hf⟩
    | admitted | releasing => cases h
  · rintro ⟨n, hf⟩
    exact ⟨_, hf, beq_self_eq_true id⟩

theorem subscribe_keeps {filters : Subject.PatternSet} (hk : s.Known) (hp : s.Phase)
    (hcalm : s.flights.any Flight.isReleasing = false) (hroom : s'.Roomy) (hs' : s' = { s with
      flights := .admitted ⟨s.minted, key, filters, false⟩ :: s.flights, minted := s.minted + 1 }) :
    s'.Known ∧ s'.Phase := by
  subst hs'
  constructor
  · refine ⟨hk.nodup, fun i hi => Nat.lt_succ_of_lt (hk.old i hi), ?_, List.nodup_cons.mpr ⟨fun hm => ?_, hk.apart⟩, ?_⟩
    · intro w hw
      rcases List.mem_cons.mp hw with hw | hw
      · cases hw
        exact ⟨Nat.lt_succ_self _, fun h => Nat.lt_irrefl _ (hk.old _ h)⟩
      · exact ⟨Nat.lt_succ_of_lt (hk.fresh w hw).1, (hk.fresh w hw).2⟩
    · obtain ⟨f, hf, he⟩ := List.mem_filterMap.mp hm
      cases f with
      | admitted w => exact (hk.fresh w hf).1.ne (Option.some.inj he)
      | unlinked | releasing => cases he
    · intro p hp
      rcases hk.subs p hp with h | h | h | h
      · exact .inl h
      · exact .inr (.inl h)
      · obtain ⟨m, hm⟩ := State.closing_iff.mp h
        exact .inr (.inr (.inl (State.closing_iff.mpr ⟨m, List.mem_cons_of_mem _ hm⟩)))
      · exact .inr (.inr (.inr h))
  · cases hp with
    | busy calm count room =>
      refine .busy (by simpa [Flight.isReleasing] using calm) ?_ hroom
      rwa [List.countP_cons_of_neg (by simp [Flight.isUnlinked])]
    | releasing n alone => simp [alone, Flight.isReleasing] at hcalm

theorem add_keeps {w : Waiter} (hk : s.Known) (hp : s.Phase) (hw : Flight.admitted w ∈ s.flights)
    (hs' : s' = { s with
      registry := s.registry.enter w, flights := s.flights.erase (.admitted w), subs := (w.id, w.shard) :: s.subs }) :
    s'.Known ∧ s'.Phase := by
  subst hs'
  obtain ⟨hcalm, hcount, hroom⟩ := hp.cases_of_mem hw rfl
  obtain ⟨hmint, hnew⟩ := hk.fresh w hw
  have hadm := countP_erase_flight (p := Flight.isAdmitted) hw
  have hunl := countP_erase_flight (p := Flight.isUnlinked) hw
  simp only [Flight.isAdmitted, Flight.isUnlinked, if_true, Bool.false_eq_true, if_false] at hadm hunl
  -- the other calls that are past their checks bring other waiters
  have hothers : w.id ∉ (s.flights.erase (.admitted w)).filterMap Flight.entrant := by
    have h := ((List.perm_cons_erase hw).filterMap Flight.entrant).nodup_iff.mp hk.apart
    exact (List.nodup_cons.mp h).1
  constructor
  · refine ⟨?_, ?_, ?_, nodup_erase_flight hk.apart, ?_⟩
    · simp only [Registry.enter, List.map_append, List.map_singleton]
      exact List.nodup_append.mpr ⟨hk.nodup, List.nodup_singleton _, fun a ha b hb => by
        rw [List.mem_singleton.mp hb]
        exact fun he => hnew (he ▸ ha)⟩
    · simp only [Registry.enter, List.map_append, List.map_singleton, List.mem_append, List.mem_singleton]
      rintro i (hi | rfl)
      · exact hk.old i hi
      · exact hmint
    · intro w' hw'
      obtain ⟨hmint', hnew'⟩ := hk.fresh w' (List.mem_of_mem_erase hw')
      refine ⟨hmint', ?_⟩
      simp only [Registry.enter, List.map_append, List.map_singleton, List.mem_append, List.mem_singleton, not_or]
      exact ⟨hnew', fun he => hothers (List.mem_filterMap.mpr ⟨_, hw', congrArg some he⟩)⟩
    · simp only [List.mem_cons]
      rintro p (rfl | hp)
      · exact .inl (by simp [Registry.enter])
      · rcases hk.subs p hp with h | h | h | h
        · exact .inl (by simp only [Registry.enter, List.map_append]; exact List.mem_append_left _ h)
        · exact .inr (.inl h)
        · obtain ⟨n, hn⟩ := State.closing_iff.mp h
          refine .inr (.inr (.inl (State.closing_iff.mpr ⟨n, ?_⟩)))
          exact (List.mem_erase_of_ne (by simp)).mpr hn
        · exact .inr (.inr (.inr h))
  · unfold State.Roomy at hroom
    refine .busy (any_erase hcalm) ?_ ?_
    · simp only [Registry.enter, List.length_append, List.length_singleton]
      push_cast
      omega
    · simp only [State.Roomy, Registry.enter]
      omega

theorem close_keeps (hk : s.Known) (hp : s.Phase) (hcalm : s.flights.any Flight.isReleasing = false)
    (hm : id ∈ s.registry.waiters.map Waiter.id)
    (hs' : s' = { s with registry := s.registry.unlink id, flights := .unlinked id n :: s.flights }) :
    s'.Known ∧ s'.Phase := by
  subst hs'
  cases hp with
  | releasing m alone => simp [alone, Flight.isReleasing] at hcalm
  | busy calm count room =>
    have hlen := length_unlink hk.nodup hm
    constructor
    · refine ⟨hk.nodup.sublist (List.filter_sublist.map _), fun i hi => hk.old i (unlink_subset _ _ _ hi),
        ?_, hk.apart, ?_⟩
      · intro w hw
        rcases List.mem_cons.mp hw with hw | hw
        · cases hw
        · exact ⟨(hk.fresh w hw).1, fun h => (hk.fresh w hw).2 (unlink_subset _ _ _ h)⟩
      · intro p hp
        rcases hk.subs p hp with h | h | h | h
        · by_cases he : p.1 = id
          · exact .inr (.inr (.inl (State.closing_iff.mpr ⟨n, he ▸ List.mem_cons_self⟩)))
          · refine .inl ?_
            obtain ⟨w, hw, hid⟩ := List.mem_map.mp h
            refine List.mem_map.mpr ⟨w, List.mem_filter.mpr ⟨hw, ?_⟩, hid⟩
            rw [hid]
            simpa using he
        · exact .inr (.inl h)
        · obtain ⟨m, hm⟩ := State.closing_iff.mp h
          exact .inr (.inr (.inl (State.closing_iff.mpr ⟨m, List.mem_cons_of_mem _ hm⟩)))
        · exact .inr (.inr (.inr h))
    · refine .busy ?_ ?_ ?_
      · simpa [Flight.isReleasing] using calm
      · simp only [Registry.unlink] at hlen ⊢
        rw [List.countP_cons_of_pos (by rfl)]
        push_cast
        omega
      · rwa [State.Roomy, List.countP_cons_of_neg (by simp [Flight.isAdmitted])]

theorem subtract_keeps (hk : s.Known) (hp : s.Phase) (hf : Flight.unlinked id n ∈ s.flights) (hs' : s' = { s with
      registry := { s.registry with total := s.registry.total - 1 }
      flights := s.flights.erase (.unlinked id n)
      closed := id :: s.closed }) :
    s'.Known ∧ s'.Phase := by
  subst hs'
  obtain ⟨hcalm, hcount, hroom⟩ := hp.cases_of_mem hf rfl
  have hadm := countP_erase_flight (p := Flight.isAdmitted) hf
  have hunl := countP_erase_flight (p := Flight.isUnlinked) hf
  simp only [Flight.isAdmitted, Flight.isUnlinked, if_true, Bool.false_eq_true, if_false] at hadm hunl
  constructor
  · refine ⟨hk.nodup, hk.old, fun w hw => hk.fresh w (List.mem_of_mem_erase hw), nodup_erase_flight hk.apart, ?_⟩
    intro p hp
    rcases hk.subs p hp with h | h | h | h
    · exact .inl h
    · exact .inr (.inl h)
    · by_cases he : p.1 = id
      · exact .inr (.inr (.inr (he ▸ List.mem_cons_self)))
      · obtain ⟨m, hm⟩ := State.closing_iff.mp h
        refine .inr (.inr (.inl (State.closing_iff.mpr ⟨m, ?_⟩)))
        exact (List.mem_erase_of_ne (by simp [he])).mpr hm
    · exact .inr (.inr (.inr (List.mem_cons_of_mem _ h)))
  · unfold State.Roomy at hroom
    refine .busy (any_erase hcalm) ?_ ?_
    · simp only
      omega
    · simp only [State.Roomy]
      omega

theorem wake_keeps (hk : s.Known) (hp : s.Phase) (hs' : s' = { s with registry := s.registry.wake key }) :
    s'.Known ∧ s'.Phase := by
  subst hs'
  have hids : (s.registry.wake key).waiters.map Waiter.id = s.registry.waiters.map Waiter.id := signal_ids _ _
  have hlen : (s.registry.wake key).waiters.length = s.registry.waiters.length := by
    simpa using congrArg List.length hids
  constructor
  · refine ⟨hids ▸ hk.nodup, hids ▸ hk.old, hids ▸ hk.fresh, hk.apart, ?_⟩
    show ∀ p ∈ s.subs, p.1 ∈ (s.registry.wake key).waiters.map Waiter.id ∨ _
    rw [hids]
    exact hk.subs
  · cases hp with
    | busy calm count room => exact .busy calm (by rw [hlen]; exact count) room
    | releasing n alone nonneg le_max left =>
      refine .releasing n alone nonneg le_max fun w hw => ?_
      have hshard : w.shard ∈ (s.registry.wake key).waiters.map Waiter.shard := List.mem_map_of_mem hw
      rw [Registry.wake, signal_shards] at hshard
      obtain ⟨w', hw', he⟩ := List.mem_map.mp hshard
      exact he ▸ left w' hw'

theorem release_keeps (hk : s.Known) (hp : s.Phase) (hf : Flight.releasing n ∈ s.flights) (hs' : s' = { s with
      registry := s.registry.releaseShard n, flights := .releasing (n + 1) :: s.flights.erase (.releasing n) }) :
    s'.Known ∧ s'.Phase := by
  subst hs'
  cases hp with
  | busy calm =>
    rw [List.any_eq_false] at calm
    exact absurd rfl (calm _ hf)
  | releasing m alone nonneg le_max left =>
    rw [alone, List.mem_singleton] at hf
    cases hf
    constructor
    · refine ⟨hk.nodup.sublist (List.filter_sublist.map _), ?_, ?_, nodup_erase_flight hk.apart, ?_⟩
      · exact fun i hi => hk.old i ((List.filter_sublist.map _).subset hi)
      · intro w hw
        simp [alone] at hw
      · intro p hp
        rcases hk.subs p hp with h | h | h | h
        · obtain ⟨w, hw, hid⟩ := List.mem_map.mp h
          by_cases hn : w.shard = n
          · refine .inr (.inl (List.mem_append_left _ (List.mem_map.mpr ⟨w, List.mem_filter.mpr ⟨hw, ?_⟩, hid⟩)))
            simpa using hn
          · refine .inl (List.mem_map.mpr ⟨w, List.mem_filter.mpr ⟨hw, ?_⟩, hid⟩)
            simpa using hn
        · exact .inr (.inl (List.mem_append_right _ h))
        · obtain ⟨m, hm⟩ := State.closing_iff.mp h
          simp [alone] at hm
        · exact .inr (.inr (.inr h))
    · refine .releasing (n + 1) (by simp [alone]) nonneg le_max fun w hw => ?_
      obtain ⟨hw, hne⟩ := List.mem_filter.mp hw
      have := left w hw
      have hne : w.shard ≠ n := by simpa using hne
      omega

theorem store_keeps (hk : s.Known) (hp : s.Phase) (hf : Flight.releasing numShards ∈ s.flights)
    (hs' : s' = { s with
      registry := { s.registry with total := 0 }, flights := s.flights.erase (.releasing numShards) }) :
    s'.Known ∧ s'.Phase := by
  subst hs'
  cases hp with
  | busy calm =>
    rw [List.any_eq_false] at calm
    exact absurd rfl (calm _ hf)
  | releasing m alone nonneg le_max left =>
    rw [alone, List.mem_singleton] at hf
    cases hf
    -- every shard has been released
    have hnil : s.registry.waiters = [] := by
      rw [List.eq_nil_iff_forall_not_mem]
      intro w hw
      have h₁ := left w hw
      have h₂ := shard_lt w
      omega
    constructor
    · refine ⟨hk.nodup, hk.old, fun w hw => ?_, nodup_erase_flight hk.apart, ?_⟩
      · exact hk.fresh w (List.mem_of_mem_erase hw)
      · intro p hp
        rcases hk.subs p hp with h | h | h | h
        · exact .inl h
        · exact .inr (.inl h)
        · obtain ⟨m, hm⟩ := State.closing_iff.mp h
          simp [alone] at hm
        · exact .inr (.inr (.inr h))
    · exact .busy (by simp [alone]) (by simp [alone, hnil]) (by simp [State.Roomy, alone])

/-- **Step.** -/
theorem exec_keeps {a : Act} (hk : s.Known) (hp : s.Phase) (hc : calm (visit State.exec s a) = true) :
    (s.exec a).1.Known ∧ (s.exec a).1.Phase := by
  unfold State.exec
  cases hn : next s a with
  | none => exact ⟨hk, hp⟩
  | some s' =>
    show s'.Known ∧ s'.Phase
    cases a with
    | subscribe key filters =>
      have hc : s.flights.any Flight.isReleasing = false ∧ s'.Roomy := by
        simpa [calm, visit, State.exec, hn] using hc
      simp only [next] at hn
      split at hn
      · cases hn
      · split at hn
        · exact subscribe_keeps hk hp hc.1 hc.2 (Option.some.inj hn).symm
        · cases hn
          exact ⟨hk, hp⟩
    | add w =>
      simp only [next] at hn
      split at hn
      · rename_i hw
        exact add_keeps hk hp hw (Option.some.inj hn).symm
      · cases hn
    | close id =>
      have hc : s.flights.any Flight.isReleasing = false ∧ (id ∈ s.registry.released → id ∈ s.closed) := by
        simpa [calm, visit, ← imp_iff_not_or] using hc
      simp only [next] at hn
      split at hn
      · cases hn
      · rename_i sub hsub
        split at hn
        · cases hn
        · rename_i hopen
          split at hn
          · cases hn
            exact ⟨hk, hp⟩
          · rename_i hclosed
            split at hn
            · cases hn
            · refine close_keeps hk hp hc.1 ?_ (Option.some.inj hn).symm
              -- a subscription that is neither released nor closed is registered
              have hid : sub.1 = id := by simpa using List.find?_some hsub
              rcases hk.subs sub (List.mem_of_find?_eq_some hsub) with h | h | h | h
              · exact hid ▸ h
              · exact absurd (hc.2 (hid ▸ h)) hclosed
              · exact absurd (hid ▸ h) hopen
              · exact absurd (hid ▸ h) hclosed
    | subtract id n =>
      simp only [next] at hn
      split at hn
      · rename_i hf
        exact subtract_keeps hk hp hf (Option.some.inj hn).symm
      · cases hn
    | wake key =>
      simp only [next] at hn
      split at hn
      · cases hn
      · exact wake_keeps hk hp (Option.some.inj hn).symm
    | releaseAll =>
      cases hn
      have hnil : s.flights = [] := List.isEmpty_iff.mp hc
      have hacc := hp.accounted
      refine ⟨⟨hk.nodup, hk.old, ?_, hk.apart, ?_⟩, .releasing 0 (by simp [hnil]) hacc.nonneg hacc.le_max fun _ _ =>
        Nat.zero_le _⟩
      · intro w hw
        simp [hnil] at hw
      · intro p hp
        rcases hk.subs p hp with h | h | h | h
        · exact .inl h
        · exact .inr (.inl h)
        · obtain ⟨m, hm⟩ := State.closing_iff.mp h
          simp [hnil] at hm
        · exact .inr (.inr (.inr h))
    | release n =>
      simp only [next] at hn
      split at hn
      · rename_i hf
        exact release_keeps hk hp hf.1 (Option.some.inj hn).symm
      · cases hn
    | store =>
      simp only [next] at hn
      split at hn
      · rename_i hf
        exact store_keeps hk hp hf (Option.some.inj hn).symm
      · cases hn

end Step

/-! ## Whole runs -/

theorem exec_max (s : State) (a : Act) : (s.exec a).1.registry.max = s.registry.max := by
  unfold State.exec
  cases hn : next s a with
  | none => rfl
  | some s' =>
    cases a <;> simp only [next] at hn <;> (repeat' split at hn) <;> cases hn <;> rfl

/-- **Main theorem.** -/
theorem waiters_counted {max maxPer : ℕ} {h : List (Lib.Visit State Act Unit)} {s : State}
    (r : Interleaves max maxPer h s) (hc : ∀ v ∈ h, calm v = true) :
    0 ≤ s.registry.total ∧ s.registry.total ≤ max ∧
      (s.flights = [] → s.registry.total = s.registry.waiters.length) := by
  have hinv : (s.Known ∧ s.Phase) ∧ s.registry.max = max := by
    refine r.invariant (C := fun _ v => calm v = true) (I := fun _ s => (s.Known ∧ s.Phase) ∧ s.registry.max = max)
      (upheld_of_forall hc) ⟨⟨?_, ?_⟩, rfl⟩ ?_
    · exact ⟨List.nodup_nil, by simp, by simp, List.nodup_nil, by simp⟩
    · exact .busy rfl rfl (by simp [State.Roomy])
    · rintro h s a ⟨⟨hk, hp⟩, hmax⟩ hv
      exact ⟨exec_keeps hk hp hv, (exec_max s a).trans hmax⟩
  obtain ⟨⟨-, hp⟩, hmax⟩ := hinv
  have hacc := hp.accounted
  exact ⟨hacc.nonneg, hmax ▸ hacc.le_max, hacc.exact⟩

/-! ## Shutdown and overlap -/

def anySubject : Subject.PatternSet := ⟨[⟨str ">", [.gt]⟩]⟩

/-- Two consumers whose streams are in different shards. -/
def leftKey : Bytes × Bytes := (str "a", str "c")

def rightKey : Bytes × Bytes := (str "b", str "c")

/-- A whole `ReleaseAll`. -/
def wholeRelease : List Act := .releaseAll :: (List.range numShards).map .release ++ [.store]

/-- Two fetches pass their checks together and park; one leaves, the other is woken and stays for the shutdown. -/
def quietLife : List Act :=
  [.subscribe leftKey anySubject, .subscribe rightKey anySubject, .add ⟨1, rightKey, anySubject, false⟩,
    .add ⟨0, leftKey, anySubject, false⟩, .close 0, .subtract 0 (shardOf leftKey.1), .close 0, .wake rightKey] ++
    wholeRelease

theorem waiters_counted_quietLife :
    (run State.exec { registry := { max := 2, maxPer := 1 } } quietLife).registry.total = 0 := by
  have h := @waiters_counted 2 1 _ _ (history_trace _ quietLife) (by decide +kernel)
  exact (h.2.2 (by decide +kernel)).trans (by decide +kernel)

/-- A fetch that was parked at a shutdown closes its subscription afterwards. -/
def lateClose : List Act :=
  [.subscribe leftKey anySubject, .add ⟨0, leftKey, anySubject, false⟩] ++ wholeRelease ++
    [.close 0, .subtract 0 (shardOf leftKey.1)]

/-- Two fetches pass the check of `total` before either is counted. -/
def overlap : List Act :=
  [.subscribe leftKey anySubject, .subscribe rightKey anySubject, .add ⟨0, leftKey, anySubject, false⟩,
    .add ⟨1, rightKey, anySubject, false⟩]

theorem waiters_miscounted :
    ((run State.exec { registry := { max := 1, maxPer := 1 } } lateClose).flights = [] ∧
      (run State.exec { registry := { max := 1, maxPer := 1 } } lateClose).registry.total = -1) ∧
    (run State.exec { registry := { max := 1, maxPer := 1 } } overlap).registry.total = 2 := by
  decide +kernel

end Messq.Parking

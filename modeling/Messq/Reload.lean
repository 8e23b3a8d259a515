import Messq.Text

/-! # Reloading settings

`Registry.Reload` asks every reloader for the changes it proposes and, if none objects, applies them one by one. A
change carries what its `Apply` does to the live settings of all reloaders; an `Apply` that fails may have moved them
too. -/

namespace Messq.Lifecycle

variable {σ : Type}

/-- A proposed change: its subject, and what `Apply` leaves of the settings, with the error it returns. -/
structure Change (σ : Type) where
  subject : Bytes
  apply : σ → σ × Option Bytes

/-- `Reloader`, with what `Validate` returns in this pass. -/
structure Reloader (σ : Type) where
  name : Bytes
  validate : Except Bytes (List (Change σ))

inductive ReloadErr
  | validation (reloader err : Bytes)
  | apply (reloader subject err : Bytes)

/-- What a pass leaves: the settings, the changes applied in order, and the error returned. -/
structure Reloaded (σ : Type) where
  live : σ
  applied : List (Change σ)
  err : Option ReloadErr

/-- The first phase of `Reload`. -/
def validateAll : List (Reloader σ) → Except ReloadErr (List (Bytes × List (Change σ)))
  | [] => .ok []
  | rl :: rls =>
    match rl.validate with
    | .error e => .error (.validation rl.name e)
    | .ok changes => (validateAll rls).map ((rl.name, changes) :: ·)

/-- The inner loop of the second phase. -/
def applyChanges (name : Bytes) : List (Change σ) → σ → Reloaded σ
  | [], s => ⟨s, [], none⟩
  | c :: cs, s =>
    match c.apply s with
    | (s', some e) => ⟨s', [], some (.apply name c.subject e)⟩
    | (s', none) => { applyChanges name cs s' with applied := c :: (applyChanges name cs s').applied }

/-- The second phase of `Reload`. -/
def applyAll : List (Bytes × List (Change σ)) → σ → Reloaded σ
  | [], s => ⟨s, [], none⟩
  | (name, changes) :: rest, s =>
    let r := applyChanges name changes s
    match r.err with
    | some _ => r
    | none => { applyAll rest r.live with applied := r.applied ++ (applyAll rest r.live).applied }

/-- `Registry.Reload`. -/
def reload (reloaders : List (Reloader σ)) (s : σ) : Reloaded σ :=
  match validateAll reloaders with
  | .error e => ⟨s, [], some e⟩
  | .ok validated => applyAll validated s

/-! ## What was proposed -/

/-- The changes proposed, in registration order. -/
def proposed (reloaders : List (Reloader σ)) : List (Change σ) :=
  reloaders.flatMap fun rl => rl.validate.toOption.getD []

/-- The settings after a change that can be applied. -/
def Change.moved (c : Change σ) (s : σ) : Option σ := if (c.apply s).2 = none then some (c.apply s).1 else none

/-- The settings after all of the changes, if each can be applied in turn. -/
def applied (cs : List (Change σ)) (s : σ) : Option σ := cs.foldlM (fun s c => c.moved s) s

/-- Settings move all or nothing: an error leaves them, and without one every proposed change was applied once, in
order. -/
structure AllOrNothing (reloaders : List (Reloader σ)) (s : σ) (r : Reloaded σ) : Prop where
  nothing : r.err ≠ none → r.live = s
  all : r.err = none → r.applied = proposed reloaders ∧ applied (proposed reloaders) s = some r.live

/-- Some reloader objects. -/
def Objects (reloaders : List (Reloader σ)) : Prop := ∃ rl ∈ reloaders, ∃ e, rl.validate = .error e

/-- An `Apply` that fails in its turn leaves the settings as they were before the pass. -/
def FailsUnmoved (cs : List (Change σ)) (s : σ) : Prop :=
  ∀ done c later s', cs = done ++ c :: later → applied done s = some s' → (c.apply s').2 ≠ none → (c.apply s').1 = s

theorem validateAll_error {reloaders : List (Reloader σ)} {e : ReloadErr} (h : validateAll reloaders = .error e) :
    Objects reloaders := by
  induction reloaders with
  | nil => cases h
  | cons rl rls ih =>
    unfold validateAll at h
    cases hv : rl.validate with
    | error e' => exact ⟨rl, List.mem_cons_self, e', hv⟩
    | ok changes =>
      cases hrest : validateAll rls with
      | error e' =>
        obtain ⟨rl', hmem, hobj⟩ := ih (by rw [hv, hrest] at h; cases h; exact hrest)
        exact ⟨rl', List.mem_cons_of_mem _ hmem, hobj⟩
      | ok validated =>
        rw [hv, hrest] at h
        cases h

theorem validateAll_ok {reloaders : List (Reloader σ)} {validated : List (Bytes × List (Change σ))}
    (h : validateAll reloaders = .ok validated) :
    ¬ Objects reloaders ∧ validated.flatMap Prod.snd = proposed reloaders := by
  induction reloaders generalizing validated with
  | nil =>
    cases h
    exact ⟨by simp [Objects], rfl⟩
  | cons rl rls ih =>
    unfold validateAll at h
    cases hv : rl.validate with
    | error e => rw [hv] at h; cases h
    | ok changes =>
      cases hrest : validateAll rls with
      | error e => rw [hv, hrest] at h; cases h
      | ok rest =>
        rw [hv, hrest] at h
        cases h
        obtain ⟨hno, hflat⟩ := ih hrest
        refine ⟨?_, ?_⟩
        · rintro ⟨rl', hmem, e, he⟩
          rcases List.mem_cons.mp hmem with rfl | hmem
          · rw [hv] at he; cases he
          · exact hno ⟨rl', hmem, e, he⟩
        · simp [proposed, hv, hflat, Except.toOption]

section Applies

variable {cs ds done later later' : List (Change σ)} {c c' : Change σ} {s s' s₁ s₂ : σ} {r : Reloaded σ}

/-- Applying a list of changes stops at the first that fails, with the settings that one has left. -/
inductive Applies (cs : List (Change σ)) (s : σ) (r : Reloaded σ) : Prop
  | all (h : applied cs s = some r.live) (ha : r.applied = cs) (hr : r.err = none)
  | stopped (done : List (Change σ)) (c : Change σ) (later : List (Change σ)) (s' : σ) (hcs : cs = done ++ c :: later)
    (h : applied done s = some s') (hc : (c.apply s').2 ≠ none) (hlive : r.live = (c.apply s').1) (hr : r.err ≠ none)

theorem applied_append (h : applied cs s = some s') : applied (cs ++ ds) s = applied ds s' := by
  rw [applied, List.foldlM_append]
  change applied cs s >>= _ = _
  rw [h]
  rfl

theorem applyChanges_applies (name : Bytes) (cs : List (Change σ)) (s : σ) : Applies cs s (applyChanges name cs s) := by
  induction cs generalizing s with
  | nil => exact .all rfl rfl rfl
  | cons c cs ih =>
    rcases hc : c.apply s with ⟨s', _ | e⟩
    · have hone : applied [c] s = some s' := by simp [applied, Change.moved, hc]
      simp only [applyChanges, hc]
      cases ih s' with
      | all h ha hr => exact .all ((applied_append hone).trans h) (by simp [ha]) hr
      | stopped done c' later s₁ hcs h hc' hlive hr =>
        exact .stopped (c :: done) c' later s₁ (by simp [hcs]) ((applied_append hone).trans h) hc' hlive hr
    · simp only [applyChanges, hc]
      exact .stopped [] c cs s rfl rfl (by simp [hc]) (by rw [hc]) (by simp)

theorem applyAll_applies (validated : List (Bytes × List (Change σ))) (s : σ) :
    Applies (validated.flatMap Prod.snd) s (applyAll validated s) := by
  induction validated generalizing s with
  | nil => exact .all rfl rfl rfl
  | cons v rest ih =>
    obtain ⟨name, changes⟩ := v
    simp only [List.flatMap_cons, applyAll]
    cases applyChanges_applies name changes s with
    | stopped done c later s' hcs h hc hlive hr =>
      obtain ⟨e', he'⟩ := Option.ne_none_iff_exists'.mp hr
      simp only [he']
      exact .stopped done c (later ++ rest.flatMap Prod.snd) s' (by simp [hcs]) h hc hlive hr
    | all h ha hr =>
      simp only [hr]
      cases ih (applyChanges name changes s).live with
      | all h' ha' hr' => exact .all ((applied_append h).trans h') (by simp [ha, ha']) hr'
      | stopped done c later s' hcs h' hc hlive hr' =>
        exact .stopped (changes ++ done) c later s' (by simp [hcs]) ((applied_append h).trans h') hc hlive hr'

/-- A change that fails in its turn ends the pass, whatever follows. -/
theorem applied_of_fails (h : applied done s = some s') (hc : (c.apply s').2 ≠ none) :
    applied (done ++ c :: later) s = none := by
  rw [applied_append h, applied, List.foldlM_cons, Change.moved, if_neg hc]
  rfl

/-- No change is applied in its turn after one that fails. -/
theorem fails_first {mid : List (Change σ)} (hl : c :: later = mid ++ c' :: later') (h : applied done s = some s₁)
    (hc : (c.apply s₁).2 ≠ none) (h' : applied (done ++ mid) s = some s₂) : c = c' ∧ s₁ = s₂ := by
  cases mid with
  | nil =>
    rw [List.append_nil, h] at h'
    exact ⟨(List.cons.inj hl).1, Option.some.inj h'⟩
  | cons x mid =>
    obtain ⟨rfl, -⟩ := List.cons.inj hl
    cases (applied_of_fails h hc).symm.trans h'

theorem Applies.unmoved_iff (happ : Applies cs s r) : (r.err ≠ none → r.live = s) ↔ FailsUnmoved cs s := by
  cases happ with
  | all h ha hr =>
    refine iff_of_true (fun hne => absurd hr hne) ?_
    intro done c later s' hcs hdone hc
    rw [hcs, applied_of_fails hdone hc] at h
    cases h
  | stopped done c later s' hcs h hc hlive hr =>
    refine ⟨fun hleft => ?_, fun hun _ => hlive.trans (hun done c later s' hcs h hc)⟩
    intro done' c' later' s'' hcs' h' hc'
    rcases List.append_eq_append_iff.mp (hcs.symm.trans hcs') with ⟨mid, rfl, hl⟩ | ⟨mid, rfl, hl⟩
    · obtain ⟨rfl, rfl⟩ := fails_first hl h hc h'
      exact hlive.symm.trans (hleft hr)
    · obtain ⟨rfl, rfl⟩ := fails_first hl h' hc' h
      exact hlive.symm.trans (hleft hr)

end Applies

/-- A reload is all or nothing exactly when a reloader objects or an `Apply` that fails leaves what was there before. -/
theorem reload_allOrNothing_iff (reloaders : List (Reloader σ)) (s : σ) :
    AllOrNothing reloaders s (reload reloaders s) ↔ Objects reloaders ∨ FailsUnmoved (proposed reloaders) s := by
  unfold reload
  cases hv : validateAll reloaders with
  | error e => exact iff_of_true ⟨fun _ => rfl, by simp⟩ (.inl (validateAll_error hv))
  | ok validated =>
    obtain ⟨hno, hflat⟩ := validateAll_ok hv
    have happ := applyAll_applies validated s
    rw [hflat] at happ
    simp only
    rw [or_iff_right hno, ← happ.unmoved_iff]
    refine ⟨AllOrNothing.nothing, fun hnothing => ⟨hnothing, fun hnil => ?_⟩⟩
    cases happ with
    | all h ha hr => exact ⟨ha, h⟩
    | stopped done c later s' hcs h hc hlive hr => exact absurd hnil hr

/-- One reloader whose second change cannot be applied. -/
def halfway : List (Reloader ℕ) :=
  [⟨str "loglevel", .ok [⟨str "level", fun s => (s + 1, none)⟩, ⟨str "tokens", fun s => (s, some (str "unreadable"))⟩]⟩]

theorem halfway_moves_settings :
    (reload halfway 0).err ≠ none ∧ (reload halfway 0).live = 1 ∧ ¬ AllOrNothing halfway 0 (reload halfway 0) := by
  have herr : (reload halfway 0).err ≠ none := by
    simp [halfway, reload, validateAll, applyAll, applyChanges, Except.map]
  exact ⟨herr, rfl, fun h => absurd (h.nothing herr) Nat.one_ne_zero⟩

end Messq.Lifecycle

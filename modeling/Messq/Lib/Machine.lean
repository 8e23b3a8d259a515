import Mathlib

/-! # Machines and their histories

A machine answers each action and moves on. `History exec s₀ h s` says that `h` lists what happened on a run from
`s₀` to `s`. Invariants of whole runs come from `History.invariant`: a property of the past and the present that
holds at the start and that every permitted step keeps. -/

namespace Messq.Lib

universe u v w

variable {σ : Type u} {α : Type v} {ω : Type w} {s s₀ : σ}

/-- One step of a run: the states around it, the action and the answer. -/
structure Visit (σ : Type u) (α : Type v) (ω : Type w) where
  pre : σ
  act : α
  out : ω
  post : σ

section Machine

variable (exec : σ → α → σ × ω)

def visit (s : σ) (a : α) : Visit σ α ω := ⟨s, a, (exec s a).2, (exec s a).1⟩

def run (s : σ) (as : List α) : σ := as.foldl (fun s a => (exec s a).1) s

def trace : σ → List α → List (Visit σ α ω)
  | _, [] => []
  | s, a :: as => visit exec s a :: trace (exec s a).1 as

/-- The visits of a run, oldest first, and the state it has reached. -/
inductive History (s₀ : σ) : List (Visit σ α ω) → σ → Prop
  | start : History s₀ [] s₀
  | step {h : List (Visit σ α ω)} {s : σ} (a : α) : History s₀ h s → History s₀ (h ++ [visit exec s a]) (exec s a).1

end Machine

variable {exec : σ → α → σ × ω}

theorem History.trans {s₁ s₂ : σ} {h₁ h₂ : List (Visit σ α ω)} (r₁ : History exec s₀ h₁ s₁)
    (r₂ : History exec s₁ h₂ s₂) :
    History exec s₀ (h₁ ++ h₂) s₂ := by
  induction r₂ with
  | start => rwa [List.append_nil]
  | step a _ ih => rw [← List.append_assoc]; exact ih.step a

theorem history_trace (s : σ) (as : List α) : History exec s (trace exec s as) (run exec s as) := by
  induction as generalizing s with
  | nil => exact .start
  | cons a as ih => exact (History.start.step a).trans (ih (exec s a).1)

theorem History.concat_inv {h : List (Visit σ α ω)} {v : Visit σ α ω} (r : History exec s₀ (h ++ [v]) s) :
    History exec s₀ h v.pre ∧ v = visit exec v.pre v.act ∧ v.post = s := by
  generalize hh : h ++ [v] = k at r
  cases r with
  | start => simp at hh
  | step a r =>
    obtain ⟨rfl, hv⟩ := List.append_inj' hh rfl
    obtain rfl : v = visit exec _ a := by simpa using hv
    exact ⟨r, rfl, rfl⟩

/-- A history is cut at any point into two. -/
theorem History.split {h₁ h₂ : List (Visit σ α ω)} (r : History exec s₀ (h₁ ++ h₂) s) :
    ∃ s₁, History exec s₀ h₁ s₁ ∧ History exec s₁ h₂ s := by
  induction h₂ using List.reverseRecOn generalizing s with
  | nil => exact ⟨s, by rwa [List.append_nil] at r, .start⟩
  | append_singleton h₂ v ih =>
    rw [← List.append_assoc] at r
    obtain ⟨r', hv, rfl⟩ := r.concat_inv
    obtain ⟨s₁, r₁, r₂⟩ := ih r'
    rw [hv]
    exact ⟨s₁, r₁, r₂.step v.act⟩

/-- A visit of a history starts where the history before it ended. -/
theorem History.at_visit {h₁ h₂ : List (Visit σ α ω)} {v : Visit σ α ω} (r : History exec s₀ (h₁ ++ v :: h₂) s) :
    History exec s₀ h₁ v.pre ∧ v = visit exec v.pre v.act ∧ History exec v.post h₂ s := by
  rw [← List.singleton_append, ← List.append_assoc] at r
  obtain ⟨s₂, r₁, r₂⟩ := r.split
  obtain ⟨r₀, hv, rfl⟩ := r₁.concat_inv
  exact ⟨r₀, hv, r₂⟩

/-- Every visit of `h` satisfies `C` together with the visits before it. -/
def Upheld (C : List (Visit σ α ω) → Visit σ α ω → Prop) (h : List (Visit σ α ω)) : Prop :=
  ∀ h₁ v h₂, h = h₁ ++ v :: h₂ → C h₁ v

theorem upheld_concat {C : List (Visit σ α ω) → Visit σ α ω → Prop} {h : List (Visit σ α ω)} {v : Visit σ α ω} :
    Upheld C (h ++ [v]) ↔ Upheld C h ∧ C h v := by
  constructor
  · intro hc
    refine ⟨fun h₁ w h₂ hh => hc h₁ w (h₂ ++ [v]) (by simp [hh]), hc h v [] rfl⟩
  · rintro ⟨hc, hv⟩ h₁ w h₂ hh
    rcases List.eq_nil_or_concat' h₂ with rfl | ⟨h₂', v', rfl⟩
    · obtain ⟨rfl, hw⟩ := List.append_inj' hh rfl
      obtain rfl : v = w := by simpa using hw
      exact hv
    · rw [← List.cons_append, ← List.append_assoc] at hh
      obtain ⟨hh, -⟩ := List.append_inj' hh rfl
      exact hc h₁ w h₂' hh

/-- The visits one after the other, each with those before it. -/
theorem upheld_iff {C : List (Visit σ α ω) → Visit σ α ω → Prop} {h : List (Visit σ α ω)} :
    Upheld C h ↔ ∀ i : Fin h.length, C (h.take i) (h.get i) := by
  constructor
  · intro hc i
    refine hc (h.take i) (h.get i) (h.drop (i + 1)) ?_
    rw [List.get_eq_getElem, List.getElem_cons_drop, List.take_append_drop]
  · rintro hc h₁ v h₂ rfl
    have := hc ⟨h₁.length, by simp⟩
    simpa using this

instance {C : List (Visit σ α ω) → Visit σ α ω → Prop} [∀ h v, Decidable (C h v)] (h : List (Visit σ α ω)) :
    Decidable (Upheld C h) := decidable_of_iff _ upheld_iff.symm

theorem upheld_of_forall {C : Visit σ α ω → Prop} {h : List (Visit σ α ω)} (hc : ∀ v ∈ h, C v) :
    Upheld (fun _ => C) h := by
  rintro h₁ v h₂ rfl
  exact hc v (by simp)

/-- **Invariants.** What holds at the start and survives every permitted step holds at the end of a permitted
run. -/
theorem History.invariant {C : List (Visit σ α ω) → Visit σ α ω → Prop} {I : List (Visit σ α ω) → σ → Prop}
    {h : List (Visit σ α ω)} (r : History exec s₀ h s) (hc : Upheld C h) (h0 : I [] s₀)
    (hs : ∀ h s a, I h s → C h (visit exec s a) → I (h ++ [visit exec s a]) (exec s a).1) : I h s := by
  induction r with
  | start => exact h0
  | step a r ih =>
    obtain ⟨hc, hv⟩ := upheld_concat.mp hc
    exact hs _ _ a (ih hc) hv

/-- An invariant whose step uses the run so far. -/
theorem History.invariant_along {C : List (Visit σ α ω) → Visit σ α ω → Prop} {I : List (Visit σ α ω) → σ → Prop}
    {h : List (Visit σ α ω)} (r : History exec s₀ h s) (hc : Upheld C h) (h0 : I [] s₀)
    (hs : ∀ h s a, History exec s₀ h s → Upheld C h → I h s → C h (visit exec s a) →
      I (h ++ [visit exec s a]) (exec s a).1) : I h s := by
  refine (r.invariant (I := fun h s => History exec s₀ h s ∧ Upheld C h ∧ I h s) hc ⟨.start, ?_, h0⟩ ?_).2.2
  · intro h₁ v h₂ hh
    simp at hh
  · rintro h s a ⟨r, hc, hi⟩ hv
    exact ⟨r.step a, upheld_concat.mpr ⟨hc, hv⟩, hs h s a r hc hi hv⟩

/-- A condition on every visit, from one that holds along the run. -/
theorem Upheld.forall {C : Visit σ α ω → Prop} {h : List (Visit σ α ω)} (hc : Upheld (fun _ => C) h) :
    ∀ v ∈ h, C v := by
  intro v hv
  obtain ⟨h₁, h₂, hh⟩ := List.append_of_mem hv
  exact hc h₁ v h₂ hh

end Messq.Lib

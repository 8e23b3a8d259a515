import Messq.Text

/-! # Message ids

`Gen.New` mints 128-bit ids. It asks `ulid.New` for an id of its current millisecond, takes the first that follows the
last one, steps its millisecond after each failure, and after eight of them increments the last id instead. Clock and
entropy source are arbitrary: a reading per call, and a source with a state of its own that may fail or repeat itself.
One call returns an id above the last one unless that was the largest (`Gen.new_spec`), so ids increase along every
sequence of calls (`mintAll_increasing`). -/

namespace Messq

/-! ## Big-endian numbers -/

/-- A byte string as a big-endian number. -/
def beNat : Bytes → ℕ
  | [] => 0
  | b :: bs => b.toNat * 256 ^ bs.length + beNat bs

theorem beNat_lt (bs : Bytes) : beNat bs < 256 ^ bs.length := by
  induction bs with
  | nil => decide
  | cons b bs ih =>
    rw [beNat, List.length_cons, pow_succ']
    have := Nat.mul_le_mul_right (256 ^ bs.length) (Nat.le_sub_one_of_lt b.toNat_lt)
    omega

theorem beNat_snoc (bs : Bytes) (b : UInt8) : beNat (bs ++ [b]) = beNat bs * 256 + b.toNat := by
  induction bs with
  | nil => simp [beNat]
  | cons c bs ih =>
    rw [List.cons_append, beNat, beNat, ih, List.length_append, List.length_singleton]
    ring

/-- `bytes.Compare`. -/
def compareBytes : Bytes → Bytes → Ordering
  | [], [] => .eq
  | [], _ :: _ => .lt
  | _ :: _, [] => .gt
  | a :: as, b :: bs => if a < b then .lt else if b < a then .gt else compareBytes as bs

/-- Strings of one length compare as the numbers do. -/
theorem compareBytes_gt {as bs : Bytes} (h : as.length = bs.length) :
    compareBytes as bs = .gt ↔ beNat bs < beNat as := by
  induction as generalizing bs with
  | nil =>
    obtain rfl := List.length_eq_zero_iff.mp h.symm
    simp [compareBytes]
  | cons a as ih =>
    cases bs with
    | nil => cases h
    | cons b bs =>
      have hlen : as.length = bs.length := Nat.succ.inj h
      have hlt := beNat_lt as
      have hlt' := beNat_lt bs
      rw [compareBytes, beNat, beNat, hlen]
      rw [hlen] at hlt
      simp only [UInt8.lt_iff_toNat_lt]
      rcases lt_trichotomy a.toNat b.toNat with hab | hab | hab
      · have := Nat.mul_le_mul_right (256 ^ bs.length) hab
        rw [Nat.succ_mul] at this
        rw [if_pos hab]
        exact ⟨fun h => (by cases h), fun h => (by omega)⟩
      · rw [hab, if_neg (lt_irrefl _), if_neg (lt_irrefl _), ih hlen]
        omega
      · have := Nat.mul_le_mul_right (256 ^ bs.length) hab
        rw [Nat.succ_mul] at this
        rw [if_neg (lt_asymm hab), if_pos hab]
        exact ⟨fun _ => (by omega), fun _ => rfl⟩

/-- The loop that adds one, from the last byte on: a byte that wraps carries into the one before it. -/
def carry : Bytes → Bytes
  | [] => []
  | b :: bs => if b + 1 ≠ 0 then (b + 1) :: bs else (b + 1) :: carry bs

def increment (bs : Bytes) : Bytes := (carry bs.reverse).reverse

theorem increment_snoc (bs : Bytes) (b : UInt8) :
    increment (bs ++ [b]) = if b + 1 ≠ 0 then bs ++ [b + 1] else increment bs ++ [b + 1] := by
  rw [increment, List.reverse_append, List.reverse_singleton, List.singleton_append, carry]
  split
  · rw [List.reverse_cons, List.reverse_reverse]
  · rw [List.reverse_cons, increment]

/-- The increment of a string is its number's, and the largest wraps to zero. -/
theorem increment_spec (bs : Bytes) :
    (increment bs).length = bs.length ∧ beNat (increment bs) = (beNat bs + 1) % 256 ^ bs.length := by
  induction bs using List.reverseRecOn with
  | nil => exact ⟨rfl, rfl⟩
  | append_singleton bs b ih =>
    obtain ⟨hlen, hval⟩ := ih
    have hlt := beNat_lt bs
    rw [increment_snoc, beNat_snoc, List.length_append, List.length_singleton, pow_succ]
    by_cases hb : b.toNat = 255
    · have hzero : b + 1 = 0 := by rw [show b = 255 from UInt8.toNat_inj.mp hb]; decide
      rw [if_neg (not_not.mpr hzero), beNat_snoc, hval, hzero, hb, List.length_append, hlen, UInt8.toNat_zero,
        show beNat bs * 256 + 255 + 1 = (beNat bs + 1) * 256 by omega, Nat.mul_mod_mul_right]
      exact ⟨congrArg _ List.length_singleton, Nat.add_zero _⟩
    · have hsucc : (b + 1).toNat = b.toNat + 1 := by
        rw [UInt8.toNat_add]
        have := b.toNat_lt
        exact Nat.mod_eq_of_lt (by rw [UInt8.toNat_one]; omega)
      have hne : b + 1 ≠ 0 := fun h => by rw [h] at hsucc; exact absurd hsucc (by rw [UInt8.toNat_zero]; omega)
      have := b.toNat_lt
      rw [if_pos hne, beNat_snoc, hsucc, List.length_append, Nat.mod_eq_of_lt (by omega)]
      exact ⟨congrArg _ List.length_singleton, (Nat.add_assoc _ _ _).symm⟩

/-! ## The generator -/

/-- A 128-bit id. -/
structure MsgID where
  bytes : Bytes
  size : bytes.length = 16
  deriving DecidableEq

/-- The id as a 128-bit big-endian number. -/
def MsgID.toNat (u : MsgID) : ℕ := beNat u.bytes

def MsgID.compare (u v : MsgID) : Ordering := compareBytes u.bytes v.bytes

def MsgID.increment (u : MsgID) : MsgID := ⟨Messq.increment u.bytes, (increment_spec u.bytes).1.trans u.size⟩

def MsgID.zero : MsgID := ⟨List.replicate 16 0, rfl⟩

/-- The alphabet of Crockford's base 32. -/
def crockford : Bytes := str "0123456789ABCDEFGHJKMNPQRSTVWXYZ"

/-- `ULID.String`: 26 digits, most significant first. -/
def MsgID.string (u : MsgID) : Bytes :=
  (List.range 26).map fun i => crockford.getD (u.toNat / 32 ^ (25 - i) % 32) 0

/-- `ulid.Timestamp` of a reading in nanoseconds. -/
def timestamp (now : ℤ) : UInt64 := UInt64.ofInt (now / 1000000)

/-- `Time.Sub`, which saturates. -/
def timeSub (t u : ℤ) : ℤ := max (-2 ^ 63) (min (2 ^ 63 - 1) (t - u))

/-- `Gen`: the millisecond handed out last, the last reading and its millisecond, the entropy source's state and the
last id. -/
structure Gen (σ : Type) where
  ms : UInt64
  seen : UInt64
  «at» : ℤ
  ent : σ
  last : MsgID

def maxMintAttempts : ℕ := 8

section Mint

variable {σ : Type}

/-- `NewGen`; the zero time is the first instant of year one. -/
def newGen (ent : σ) : Gen σ := ⟨0, 0, -62135596800000000000, ent, .zero⟩

/-- The loop of `Gen.New` and what follows it; `new` is `ulid.New`, which may fail. -/
def Gen.mint (new : UInt64 → σ → Option MsgID × σ) : ℕ → Gen σ → MsgID × Gen σ
  | 0, g => (g.last.increment, { g with last := g.last.increment })
  | n + 1, g =>
    match new g.ms g.ent with
    | (some u, ent) =>
      if u.compare g.last = .gt then (u, { g with ent, last := u })
      else Gen.mint new n { g with ms := g.ms + 1, ent }
    | (none, ent) => Gen.mint new n { g with ms := g.ms + 1, ent }

/-- `Gen.New` at a clock reading: the id, and how far the clock stepped back if it did. -/
def Gen.new (new : UInt64 → σ → Option MsgID × σ) (g : Gen σ) (now : ℤ) : (MsgID × Option ℤ) × Gen σ :=
  let nowMS := timestamp now
  let regress := if nowMS < g.seen then some (timeSub g.at now) else none
  let g := if nowMS ≠ g.seen then { g with seen := nowMS, «at» := now } else g
  let g := if g.ms < nowMS then { g with ms := nowMS } else g
  let (u, g) := g.mint new maxMintAttempts
  ((u, regress), g)

/-- The ids of one call after the other, each at its own clock reading. -/
def mintAll (new : UInt64 → σ → Option MsgID × σ) : Gen σ → List ℤ → List MsgID
  | _, [] => []
  | g, now :: nows => (g.new new now).1.1 :: mintAll new (g.new new now).2 nows

/-! ## Order -/

/-- The largest id. -/
def MsgID.IsMax (u : MsgID) : Prop := u.toNat = 2 ^ 128 - 1

theorem MsgID.toNat_lt (u : MsgID) : u.toNat < 2 ^ 128 := by
  have := beNat_lt u.bytes
  rwa [u.size] at this

theorem MsgID.compare_gt {u v : MsgID} : u.compare v = .gt ↔ v.toNat < u.toNat :=
  compareBytes_gt (u.size.trans v.size.symm)

theorem MsgID.toNat_increment {u : MsgID} (h : ¬ u.IsMax) : u.increment.toNat = u.toNat + 1 := by
  have hlt := u.toNat_lt
  have hspec := (increment_spec u.bytes).2
  rw [u.size] at hspec
  unfold MsgID.IsMax at h
  exact hspec.trans (Nat.mod_eq_of_lt (by unfold MsgID.toNat at *; omega))

variable {new : UInt64 → σ → Option MsgID × σ}

/-- However the attempts go, what is returned is the last id from then on, and follows the one before. -/
theorem Gen.mint_spec (n : ℕ) (g : Gen σ) :
    (g.mint new n).2.last = (g.mint new n).1 ∧ (¬ g.last.IsMax → g.last.toNat < (g.mint new n).1.toNat) := by
  induction n generalizing g with
  | zero => exact ⟨rfl, fun h => by rw [Gen.mint, MsgID.toNat_increment h]; omega⟩
  | succ n ih =>
    rw [Gen.mint]
    split
    · rename_i u ent _
      split
      · rename_i hu
        exact ⟨rfl, fun _ => MsgID.compare_gt.mp hu⟩
      · exact ih { g with ms := g.ms + 1, ent }
    · rename_i ent _
      exact ih { g with ms := g.ms + 1, ent }

variable (new) in
/-- One call: the clock moves the millisecond only. -/
theorem Gen.new_spec (g : Gen σ) (now : ℤ) :
    (g.new new now).2.last = (g.new new now).1.1 ∧ (¬ g.last.IsMax → g.last.toNat < (g.new new now).1.1.toNat) := by
  unfold Gen.new
  dsimp only
  split_ifs <;> exact Gen.mint_spec _ _

theorem mintAll_cons (g : Gen σ) (now : ℤ) (nows : List ℤ) :
    mintAll new g (now :: nows) = (g.new new now).1.1 :: mintAll new (g.new new now).2 nows := rfl

/-- An id follows all before it and the last one of the state the calls started from, unless one of these is the
largest. -/
theorem mintAll_follows {g : Gen σ} {nows : List ℤ} {before after : List MsgID} {u : MsgID}
    (h : mintAll new g nows = before ++ u :: after) (hlast : ¬ g.last.IsMax) (hmax : ∀ v ∈ before, ¬ v.IsMax) :
    g.last.toNat < u.toNat ∧ ∀ v ∈ before, v.toNat < u.toNat := by
  induction nows generalizing g before with
  | nil => cases before <;> cases h
  | cons now nows ih =>
    obtain ⟨heq, hlt⟩ := g.new_spec new now
    rw [mintAll_cons] at h
    cases before with
    | nil =>
      obtain ⟨rfl, -⟩ := List.cons.inj h
      exact ⟨hlt hlast, fun v hv => absurd hv List.not_mem_nil⟩
    | cons v before =>
      obtain ⟨rfl, hrest⟩ := List.cons.inj h
      obtain ⟨hv, hmax⟩ := List.forall_mem_cons.mp hmax
      obtain ⟨hfirst, hbefore⟩ := ih hrest (heq ▸ hv) hmax
      rw [heq] at hfirst
      exact ⟨(hlt hlast).trans hfirst, List.forall_mem_cons.mpr ⟨hfirst, hbefore⟩⟩

end Mint

/-- For every entropy source and every sequence of clock readings, an id is above all that were returned before it, as
long as none of these is the largest. -/
theorem mintAll_increasing {σ : Type} (new : UInt64 → σ → Option MsgID × σ) (ent : σ) (nows : List ℤ)
    {before after : List MsgID} {u : MsgID} (h : mintAll new (newGen ent) nows = before ++ u :: after)
    (hmax : ∀ v ∈ before, ¬ v.IsMax) : ∀ v ∈ before, v.toNat < u.toNat :=
  (mintAll_follows h (show ¬ MsgID.zero.toNat = 2 ^ 128 - 1 by decide) hmax).2

/-- A source that always fails, under a clock that steps back. -/
theorem mintAll_increasing_broken :
    mintAll (fun _ e => (none, e)) (newGen ()) [7000000, 5000000, 5000000] =
        [MsgID.zero.increment, MsgID.zero.increment.increment] ++ [MsgID.zero.increment.increment.increment] ∧
      ∀ v ∈ [MsgID.zero.increment, MsgID.zero.increment.increment],
        v.toNat < MsgID.zero.increment.increment.increment.toNat := by
  have hrun : mintAll (fun _ e => (none, e)) (newGen ()) [7000000, 5000000, 5000000] =
      [MsgID.zero.increment, MsgID.zero.increment.increment] ++ [MsgID.zero.increment.increment.increment] := by decide
  refine ⟨hrun, mintAll_increasing _ _ _ hrun ?_⟩
  unfold MsgID.IsMax
  decide

end Messq

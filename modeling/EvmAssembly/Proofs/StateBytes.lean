import Mathlib.Data.Nat.Digits.Lemmas
import EvmAssembly.KeccakHash

/-!
# The bytes of a state

A state of 25 lanes is 200 bytes, the lowest byte of each lane first. It is known by its bytes, and
whatever is added to it is added to the bytes.
-/

namespace EvmAssembly.Keccak

variable {state other : State} {lane : UInt64}

/-- A byte of a lane, counted from the lowest. -/
def laneByte (lane : UInt64) (k : Nat) : UInt8 := (lane >>> (8 * k).toUInt64).toUInt8

theorem toNat_laneByte (lane : UInt64) {k : Nat} (hk : k < 8) :
    (laneByte lane k).toNat = lane.toNat / 256 ^ k % 256 := by
  have hshift : (8 * k).toUInt64.toNat % 64 = 8 * k := by
    rw [Nat.toUInt64, UInt64.toNat_ofNat']
    omega
  rw [laneByte, UInt64.toNat_toUInt8, UInt64.toNat_shiftRight, hshift, Nat.shiftRight_eq_div_pow,
    Nat.pow_mul]

/-- A lane is known by its eight bytes. -/
theorem lane_ext {lane other : UInt64} (h : ∀ k < 8, laneByte lane k = laneByte other k) :
    lane = other := by
  have hmod : ∀ k ≤ 8, lane.toNat % 256 ^ k = other.toNat % 256 ^ k := by
    intro k hk
    induction k with
    | zero => rw [Nat.pow_zero, Nat.mod_one, Nat.mod_one]
    | succ k ih =>
      have hbyte := congrArg UInt8.toNat (h k hk)
      rw [toNat_laneByte _ hk, toNat_laneByte _ hk] at hbyte
      rw [Nat.mod_pow_succ, Nat.mod_pow_succ, ih (by omega), hbyte]
  apply UInt64.toNat_inj.mp
  calc lane.toNat = lane.toNat % 256 ^ 8 := (Nat.mod_eq_of_lt lane.toNat_lt).symm
    _ = other.toNat % 256 ^ 8 := hmod 8 le_rfl
    _ = other.toNat := Nat.mod_eq_of_lt other.toNat_lt

theorem laneByte_xor (lane other : UInt64) {k : Nat} (hk : k < 8) :
    laneByte (lane ^^^ other) k = laneByte lane k ^^^ laneByte other k := by
  have hpow : 256 ^ k = 2 ^ (8 * k) := by rw [Nat.pow_mul]
  have hbyte : 256 = 2 ^ 8 := rfl
  apply UInt8.toNat_inj.mp
  rw [UInt8.toNat_xor, toNat_laneByte _ hk, toNat_laneByte _ hk, toNat_laneByte _ hk,
    UInt64.toNat_xor, hpow, ← Nat.shiftRight_eq_div_pow, ← Nat.shiftRight_eq_div_pow,
    ← Nat.shiftRight_eq_div_pow, Nat.shiftRight_xor_distrib, hbyte, Nat.xor_mod_two_pow]

/-- A byte that is moved into a lane stands there alone. -/
theorem laneByte_shifted (b : UInt8) {m k : Nat} (hm : m < 8) (hk : k < 8) :
    laneByte (b.toUInt64 <<< (8 * m).toUInt64) k = if k = m then b else 0 := by
  have hb : b.toNat < 256 := b.toNat_lt
  have hshift : (8 * m).toUInt64.toNat % 64 = 8 * m := by
    rw [Nat.toUInt64, UInt64.toNat_ofNat']
    omega
  have hbound : ∀ j, m < j → b.toNat * 256 ^ m < 256 ^ j := by
    intro j hj
    calc b.toNat * 256 ^ m < 256 * 256 ^ m := Nat.mul_lt_mul_of_pos_right hb (by positivity)
      _ = 256 ^ (m + 1) := (Nat.pow_succ').symm
      _ ≤ 256 ^ j := Nat.pow_le_pow_right (by decide) hj
  have hlane : (b.toUInt64 <<< (8 * m).toUInt64).toNat = b.toNat * 256 ^ m := by
    rw [UInt64.toNat_shiftLeft, hshift, UInt8.toNat_toUInt64, Nat.shiftLeft_eq, Nat.pow_mul]
    exact Nat.mod_eq_of_lt (hbound 8 hm)
  apply UInt8.toNat_inj.mp
  rw [toNat_laneByte _ hk, hlane]
  rcases Nat.lt_trichotomy k m with hlt | rfl | hgt
  · obtain ⟨d, rfl⟩ := Nat.exists_eq_add_of_lt hlt
    have hsplit : b.toNat * 256 ^ (k + d + 1) = 256 ^ k * (b.toNat * 256 ^ d * 256) := by ring
    rw [if_neg (by omega), hsplit, Nat.mul_div_cancel_left _ (by positivity), Nat.mul_mod_left]
    rfl
  · rw [if_pos rfl, Nat.mul_div_cancel _ (by positivity), Nat.mod_eq_of_lt hb]
  · rw [if_neg (by omega), Nat.div_eq_of_lt (hbound k hgt)]
    rfl

/-- A byte of a state. -/
def byteAt (state : State) (i : Fin 200) : UInt8 := laneByte state[i.val / 8] (i.val % 8)

theorem state_ext (h : ∀ i, byteAt state i = byteAt other i) : state = other := by
  apply Vector.ext
  intro j hj
  apply lane_ext
  intro k hk
  have hbyte := h ⟨8 * j + k, by omega⟩
  have hlane : (8 * j + k) / 8 = j := by omega
  have hplace : (8 * j + k) % 8 = k := by omega
  simpa only [byteAt, hlane, hplace] using hbyte

/-- Adding a byte changes the byte at its place and no other. -/
theorem byteAt_addByte (state : State) (b : UInt8) (i : Fin rate) (j : Fin 200) :
    byteAt (addByte state b i) j = byteAt state j ^^^ if j.val = i.val then b else 0 := by
  have hi := i.isLt
  simp only [rate] at hi
  simp only [byteAt, addByte, Vector.getElem_set]
  split
  · rename_i hsame
    rw [laneByte_xor _ _ (by omega), laneByte_shifted _ (by omega) (by omega)]
    have hiff : j.val % 8 = i.val % 8 ↔ j.val = i.val := by omega
    simp only [hsame, hiff]
  · rename_i hother
    have hne : j.val ≠ i.val := fun heq => hother (by rw [heq])
    rw [if_neg hne, UInt8.xor_zero]

/-- Adding bytes one after another from the first place on adds each of them at its own. -/
theorem byteAt_foldl {n : Nat} (hn : n ≤ rate) (bytes : Fin n → UInt8) (state : State)
    (j : Fin 200) :
    byteAt (Fin.foldl n (fun state i => addByte state (bytes i) (i.castLE hn)) state) j =
      byteAt state j ^^^ if h : j.val < n then bytes ⟨j.val, h⟩ else 0 := by
  induction n with
  | zero => simp
  | succ n ih =>
    rw [Fin.foldl_succ_last, byteAt_addByte]
    have hbefore := ih (by omega) fun i => bytes i.castSucc
    refine (congrArg (· ^^^ _) hbefore).trans ?_
    rcases Nat.lt_trichotomy j.val n with hlt | heq | hgt
    · have hne : ¬ j.val = n := by omega
      have hnext : j.val < n + 1 := by omega
      simp [hlt, hne, hnext]
    · subst heq
      simp [Fin.last]
    · have hlt : ¬ j.val < n := by omega
      have hne : ¬ j.val = n := by omega
      have hnext : ¬ j.val < n + 1 := by omega
      simp [hlt, hne, hnext]

theorem byteAt_addBlock (state : State) (block : Block) (j : Fin 200) :
    byteAt (addBlock state block) j =
      byteAt state j ^^^ if h : j.val < rate then block[j.val] else 0 :=
  byteAt_foldl le_rfl (fun i => block[i]) state j

end EvmAssembly.Keccak

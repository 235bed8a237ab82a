import Mathlib.Data.List.ModifyLast
import Mathlib.Data.List.OfFn
import Mathlib.Order.Bounds.Defs
import EvmAssembly.Proofs.SpongeInPlace

/-!
# The padded input

The hash is told by its input as a whole: a one, zeros and a last bit are put behind the input, so
that it fills blocks of 136 bytes, and each block is added to the first lanes as numbers of eight
bytes.
-/

namespace EvmAssembly.Keccak

variable {data : Bytes}

/-- The least multiple of the rate above a length. -/
def paddedLength (length : Nat) : Nat := rate * (length / rate + 1)

/-- The input with a one and zeros behind it, and with the highest bit of the last byte set. -/
def padded (data : Bytes) : Bytes :=
  (data ++ 0x01 :: List.replicate (paddedLength data.length - (data.length + 1)) 0).modifyLast
    (· ||| 0x80)

/-- What stands behind an input: one byte for the one and the bit, or a byte for each and zeros
between them. -/
def padding (length : Nat) : Bytes :=
  if length % 136 = 135 then [0x81] else 0x01 :: List.replicate (134 - length % 136) 0 ++ [0x80]

theorem padded_eq (data : Bytes) : padded data = data ++ padding data.length := by
  have hzeros : paddedLength data.length - (data.length + 1) = 135 - data.length % 136 := by
    simp only [paddedLength, rate]
    omega
  rw [padded, hzeros, List.modifyLast_append_of_right_ne_nil _ _ _ (List.cons_ne_nil _ _), padding]
  split
  · rename_i hlast
    rw [hlast]
    rfl
  · rename_i hlast
    have hnext : 135 - data.length % 136 = 134 - data.length % 136 + 1 := by omega
    rw [hnext, List.replicate_succ', ← List.cons_append, List.modifyLast_concat]
    rfl

theorem length_padding (length : Nat) : (padding length).length = 136 - length % 136 := by
  rw [padding]
  split
  · rename_i hlast
    rw [hlast]
    rfl
  · rw [List.length_append, List.length_cons, List.length_replicate, List.length_singleton]
    omega

theorem padding_getElem {length k : Nat} (hk : k < (padding length).length) :
    (padding length)[k] =
      (if k = 0 then 0x01 else 0) ^^^ if k + 1 = (padding length).length then 0x80 else 0 := by
  by_cases hlast : length % 136 = 135
  · have hpadding : padding length = [0x81] := if_pos hlast
    simp only [hpadding, List.length_singleton] at hk ⊢
    obtain rfl : k = 0 := by omega
    rfl
  · have hpadding : padding length = 0x01 :: (List.replicate (134 - length % 136) 0 ++ [0x80]) :=
      if_neg hlast
    simp only [hpadding, List.length_cons, List.length_append, List.length_replicate,
      List.length_nil, Nat.zero_add] at hk ⊢
    cases k with
    | zero =>
      rw [if_pos rfl, if_neg (by omega)]
      rfl
    | succ k =>
      rw [List.getElem_cons_succ, if_neg (Nat.succ_ne_zero k)]
      by_cases hzero : k < 134 - length % 136
      · rw [List.getElem_append_left (by simpa using hzero), List.getElem_replicate,
          if_neg (by omega)]
        rfl
      · obtain rfl : k = 134 - length % 136 := by omega
        simp

theorem length_padded (data : Bytes) : (padded data).length = paddedLength data.length := by
  rw [padded_eq, List.length_append, length_padding]
  simp only [paddedLength, rate]
  omega

/-- The padded input is no longer than its blocks need. -/
theorem length_padded_isLeast (data : Bytes) :
    IsLeast {n | 136 ∣ n ∧ data.length < n} (padded data).length := by
  rw [length_padded]
  simp only [paddedLength, rate]
  refine ⟨⟨⟨data.length / 136 + 1, rfl⟩, by omega⟩, ?_⟩
  rintro n ⟨⟨count, rfl⟩, hn⟩
  omega

/-- A block in front stays as it is. -/
theorem padded_of_full (h : rate ≤ data.length) :
    padded data = data.take rate ++ padded (data.drop rate) := by
  have hpadding : padding (data.drop rate).length = padding data.length := by
    have hmod : (data.drop rate).length % 136 = data.length % 136 := by
      simp only [List.length_drop, rate] at h ⊢
      omega
    rw [padding, hmod, padding]
  rw [padded_eq, padded_eq, hpadding, ← List.append_assoc, List.take_append_drop]

/-- The blocks that a text is cut into, as far as it fills them. -/
def pieces (text : Bytes) : List Bytes :=
  (List.range (text.length / rate)).map fun k => (text.drop (rate * k)).take rate

theorem pieces_cons {first : Bytes} (h : first.length = rate) (rest : Bytes) :
    pieces (first ++ rest) = first :: pieces rest := by
  have hcount : (first ++ rest).length / rate = rest.length / rate + 1 := by
    rw [List.length_append, h, Nat.add_comm, Nat.add_div_right _ (by decide)]
  rw [pieces, hcount, List.range_succ_eq_map, List.map_cons, List.map_map, pieces]
  congr 1
  · rw [Nat.mul_zero, List.drop_zero, ← h, List.take_left]
  · apply List.map_congr_left
    intro k _
    have hplace : rate * (k + 1) = first.length + rate * k := by
      rw [h]
      ring
    rw [Function.comp_apply, Nat.succ_eq_add_one, hplace, List.drop_length_add_append]

theorem toList_fullBlock (chunk : Bytes) (h : chunk.length = rate) :
    (fullBlock chunk h).toList = chunk := by
  rw [fullBlock, Vector.toList_ofFn]
  apply List.ext_getElem
  · rw [List.length_ofFn, h]
  · intro i _ _
    rw [List.getElem_ofFn]

/-- A short input and its padding fill the last block. -/
theorem toList_lastBlock (h : data.length < rate) : (lastBlock data).toList = padded data := by
  have hpadding : (padding data.length).length = rate - data.length := by
    have hmod : data.length % 136 = data.length := Nat.mod_eq_of_lt h
    rw [length_padding, hmod]
    rfl
  rw [lastBlock, Vector.toList_ofFn, padded_eq]
  apply List.ext_getElem
  · rw [List.length_ofFn, List.length_append, hpadding]
    omega
  · intro i hi hi'
    rw [List.length_ofFn] at hi
    rw [List.getElem_ofFn]
    rcases Nat.lt_or_ge i data.length with hlt | hge
    · have hne : ¬ i = data.length := by omega
      have hend : ¬ i = rate - 1 := by omega
      simp [hlt, hne, hend]
    · rw [List.getElem_append_right hge, padding_getElem, hpadding]
      have hone : i - data.length = 0 ↔ i = data.length := by omega
      have hend : i - data.length + 1 = rate - data.length ↔ i = rate - 1 := by omega
      simp [hge, hone, hend]

theorem toList_blocks (data : Bytes) : (blocks data).map Vector.toList = pieces (padded data) := by
  fun_induction blocks data with
  | case1 data hfull ih =>
    have hlength := take_full_iff.mp hfull
    rw [List.map_cons, ih, toList_fullBlock, padded_of_full hlength, pieces_cons hfull]
  | case2 data hshort =>
    have hlength := Nat.not_le.mp (take_full_iff.not.mp hshort)
    have hfilled : (padded data).length = rate := by
      rw [length_padded, paddedLength, Nat.div_eq_of_lt hlength, Nat.zero_add, Nat.mul_one]
    have hsingle := pieces_cons hfilled []
    rw [List.append_nil] at hsingle
    rw [List.map_singleton, toList_lastBlock hlength, hsingle]
    rfl

theorem flatten_blocks (data : Bytes) :
    ((blocks data).map Vector.toList).flatten = padded data := by
  fun_induction blocks data with
  | case1 data hfull ih =>
    have hlength := take_full_iff.mp hfull
    rw [List.map_cons, List.flatten_cons, ih, toList_fullBlock, ← padded_of_full hlength]
  | case2 data hshort =>
    have hlength := Nat.not_le.mp (take_full_iff.not.mp hshort)
    rw [List.map_singleton, List.flatten_singleton, toList_lastBlock hlength]

theorem length_blocks (data : Bytes) : (blocks data).length = data.length / rate + 1 := by
  rw [← List.length_map Vector.toList, toList_blocks, pieces, List.length_map, List.length_range,
    length_padded, paddedLength, Nat.mul_div_cancel_left _ (by decide)]

/-- The lane whose bytes are these, the lowest first. -/
def laneOf (bytes : Bytes) : UInt64 := UInt64.ofNat (Nat.ofDigits 256 (bytes.map UInt8.toNat))

/-- The bytes of a lane, the lowest first. -/
def laneBytes (lane : UInt64) : Bytes :=
  List.ofFn fun k : Fin 8 => UInt8.ofNat (lane.toNat / 256 ^ k.val)

/-- Adds a block to the first seventeen lanes of a state. -/
def addLanes (state : State) (block : Bytes) : State :=
  Vector.ofFn fun j =>
    if j.val < 17 then state.get j ^^^ laneOf ((block.drop (8 * j.val)).take 8) else state.get j

/-- The bytes of a state, lane by lane. -/
def stateBytes (state : State) : Bytes := state.toList.flatMap laneBytes

theorem laneByte_laneOf {bytes : Bytes} (h : bytes.length = 8) {k : Nat} (hk : k < bytes.length) :
    laneByte (laneOf bytes) k = bytes[k] := by
  have hdigits : ∀ d ∈ bytes.map UInt8.toNat, d < 256 := by
    intro d hd
    obtain ⟨b, -, rfl⟩ := List.mem_map.mp hd
    exact b.toNat_lt
  have hlane : (laneOf bytes).toNat = Nat.ofDigits 256 (bytes.map UInt8.toNat) := by
    have hlt := Nat.ofDigits_lt_base_pow_length (by decide) hdigits
    rw [List.length_map, h] at hlt
    exact UInt64.toNat_ofNat_of_lt' hlt
  apply UInt8.toNat_inj.mp
  rw [toNat_laneByte _ (by omega), hlane,
    Nat.ofDigits_div_pow_eq_ofDigits_drop k (by decide) _ hdigits, ← List.map_drop,
    List.drop_eq_getElem_cons hk, List.map_cons, Nat.ofDigits_cons]
  have hbyte : bytes[k].toNat < 256 := bytes[k].toNat_lt
  rw [Nat.add_mul_mod_self_left, Nat.mod_eq_of_lt hbyte]

theorem addBlock_eq_addLanes (state : State) (block : Block) :
    addBlock state block = addLanes state block.toList := by
  apply state_ext
  intro j
  have hget : state.get ⟨j.val / 8, by omega⟩ = state[j.val / 8] := rfl
  rw [byteAt_addBlock, byteAt, byteAt, addLanes, Vector.getElem_ofFn, hget]
  by_cases hj : j.val < rate
  · have hlane : j.val / 8 < 17 := by
      simp only [rate] at hj
      omega
    have hlength : ((block.toList.drop (8 * (j.val / 8))).take 8).length = 8 := by
      rw [List.length_take, List.length_drop, Vector.length_toList]
      simp only [rate]
      omega
    have hplace : 8 * (j.val / 8) + j.val % 8 = j.val := Nat.div_add_mod _ _
    rw [dif_pos hj, if_pos hlane, laneByte_xor _ _ (by omega),
      laneByte_laneOf hlength (by rw [hlength]; omega)]
    simp [hplace]
  · have hlane : ¬ j.val / 8 < 17 := by
      simp only [rate] at hj
      omega
    rw [dif_neg hj, if_neg hlane, UInt8.xor_zero]

theorem laneBytes_eq (lane : UInt64) :
    laneBytes lane = List.ofFn fun k : Fin 8 => laneByte lane k.val := by
  rw [laneBytes]
  congr 1
  funext k
  apply UInt8.toNat_inj.mp
  rw [toNat_laneByte _ k.isLt, UInt8.toNat_ofNat']

theorem stateBytes_eq (state : State) : stateBytes state = List.ofFn (byteAt state) := by
  have hlanes : state.toList = List.ofFn fun j : Fin 25 => state[j.val] := by
    rw [← Vector.toList_ofFn, Vector.ofFn_getElem]
  refine Eq.trans ?_ (@List.ofFn_mul UInt8 25 8 (byteAt state)).symm
  rw [stateBytes, hlanes, List.flatMap_def, List.map_ofFn]
  congr 2
  funext j
  rw [Function.comp_apply, laneBytes_eq]
  congr 1
  funext k
  have hlane : (j.val * 8 + k.val) / 8 = j.val := by omega
  have hplace : (j.val * 8 + k.val) % 8 = k.val := by omega
  simp only [byteAt, hlane, hplace]

theorem digest_eq (state : State) : digest state = (stateBytes state).take 32 := by
  rw [stateBytes_eq]
  apply List.ext_getElem
  · rw [digest, List.length_ofFn, List.length_take, List.length_ofFn]
    rfl
  · intro i _ _
    simp only [digest, List.getElem_ofFn, List.getElem_take]
    rfl

/-- With any permutation, the hash is that of the padded input, cut into blocks that are added to
the first seventeen lanes of the state. Byte by byte and in place it is the same hash, and no index
is outside the input or the state. -/
theorem sponge_of_padded (f : State → State) (data : Bytes) :
    sponge f data =
      (stateBytes ((pieces (padded data)).foldl (fun state block => f (addLanes state block))
        (Vector.replicate 25 0))).take 32 ∧
    IsLeast {n | 136 ∣ n ∧ data.length < n} (padded data).length ∧
    padded data = (if data.length % 136 = 135 then data ++ [0x81]
      else data ++ 0x01 :: List.replicate (134 - data.length % 136) 0 ++ [0x80]) ∧
    (pieces (padded data)).flatten = padded data ∧
    (pieces (padded data)).map List.length = List.replicate (data.length / 136 + 1) 136 ∧
    (inPlace? f data).map Prod.fst = some (sponge f data) := by
  refine ⟨?_, length_padded_isLeast data, ?_, ?_, ?_, ?_⟩
  · rw [sponge, absorb, ← toList_blocks, List.foldl_map, digest_eq]
    simp only [addBlock_eq_addLanes]
  · rw [padded_eq, padding]
    split
    · rfl
    · rw [List.append_assoc]
  · rw [← toList_blocks, flatten_blocks]
  · rw [← toList_blocks, List.map_map]
    apply List.eq_replicate_iff.mpr
    constructor
    · rw [List.length_map, length_blocks]
      rfl
    · intro n hn
      obtain ⟨block, -, rfl⟩ := List.mem_map.mp hn
      exact block.length_toList
  · rw [inPlace?_eq_some]
    rfl

end EvmAssembly.Keccak

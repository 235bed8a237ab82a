import EvmAssembly.Proofs.StateBytes

/-!
# Absorbing in place

The input need not be cut into blocks: it can be added to the state byte by byte where it stands,
with the padding added behind it. Here that is done with every index checked, of the input and of
the state, and with a record of the states that are permuted. No check fails, the digest is that of
the blocks, and so is what is added between two permutations.
-/

namespace EvmAssembly.Keccak

variable {f : State → State} {data : Bytes} {state : State}

/-- Adds a byte at a place of the state, if the state has a lane there. -/
def addByte? (state : State) (i : Nat) (b : UInt8) : Option State :=
  if h : i / 8 < 25 then
    some (state.set (i / 8) (state[i / 8] ^^^ (b.toUInt64 <<< (8 * (i % 8)).toUInt64)))
  else none

/-- Adds so many bytes of the input, from `start` on, to the first bytes of the state. -/
def addBytes? (data : Bytes) (start : Nat) : Nat → State → Option State
  | 0, state => some state
  | count + 1, state => do
    let state ← addBytes? data start count state
    let b ← data[start + count]?
    addByte? state count b

/-- Adds the last bytes of the input, fewer than fill a block, and the padding. -/
def addLast? (data : Bytes) (start length : Nat) (state : State) : Option State := do
  let state ← addBytes? data start length state
  let state ← addByte? state length 0x01
  addByte? state (rate - 1) 0x80

/-- A state, with the states before it that were permuted. -/
structure Absorbing where
  state : State
  permuted : List State

def Absorbing.permute (f : State → State) (run : Absorbing) : Absorbing :=
  ⟨f run.state, run.permuted ++ [run.state]⟩

/-- Absorbs the last `length` bytes of the input, which stand from `start` on. -/
def absorbFrom? (f : State → State) (data : Bytes) (start length : Nat) (run : Absorbing) :
    Option Absorbing :=
  if rate ≤ length then do
    let state ← addBytes? data start rate run.state
    absorbFrom? f data (start + rate) (length - rate) (Absorbing.permute f ⟨state, run.permuted⟩)
  else do
    let state ← addLast? data start length run.state
    return Absorbing.permute f ⟨state, run.permuted⟩
termination_by length
decreasing_by simp only [rate] at *; omega

/-- The first `count` bytes of a state. -/
def digest? (state : State) : Nat → Option Bytes
  | 0 => some []
  | count + 1 => do
    let bytes ← digest? state count
    let lane ← state[count / 8]?
    return bytes ++ [laneByte lane (count % 8)]

/-- The digest of an input, and the states that are permuted on the way. -/
def inPlace? (f : State → State) (data : Bytes) : Option (Bytes × List State) := do
  let run ← absorbFrom? f data 0 data.length ⟨Vector.replicate 25 0, []⟩
  let bytes ← digest? run.state 32
  return (bytes, run.permuted)

theorem addByte?_eq_some {i : Nat} (hi : i < rate) (state : State) (b : UInt8) :
    addByte? state i b = some (addByte state b ⟨i, hi⟩) := by
  have hlane : i / 8 < 25 := by
    simp only [rate] at hi
    omega
  rw [addByte?, dif_pos hlane]
  rfl

theorem addBytes?_eq_some {start count : Nat} (hcount : count ≤ rate)
    (hdata : start + count ≤ data.length) (state : State) :
    addBytes? data start count state =
      some (Fin.foldl count
        (fun state i => addByte state (data.get ⟨start + i.val, by omega⟩) (i.castLE hcount))
        state) := by
  induction count with
  | zero => rw [addBytes?, Fin.foldl_zero]
  | succ count ih =>
    have hplace : data[start + count]? = some (data.get ⟨start + count, by omega⟩) :=
      List.getElem?_eq_getElem _
    rw [addBytes?, ih (by omega) (by omega), Option.bind_eq_bind, Option.bind_some, hplace,
      Option.bind_eq_bind, Option.bind_some, addByte?_eq_some (by omega), Fin.foldl_succ_last]
    rfl

private theorem digest?_eq_ofFn (state : State) {count : Nat} (hcount : count ≤ 200) :
    digest? state count = some (List.ofFn fun i => byteAt state (i.castLE hcount)) := by
  induction count with
  | zero => rw [digest?, List.ofFn_zero]
  | succ count ih =>
    have hlane : state[count / 8]? = some (state.get ⟨count / 8, by omega⟩) :=
      Vector.getElem?_eq_getElem _
    rw [digest?, ih (by omega), Option.bind_eq_bind, Option.bind_some, hlane, Option.bind_eq_bind,
      Option.bind_some, List.ofFn_succ_last]
    rfl

theorem digest?_eq_some (state : State) : digest? state 32 = some (digest state) :=
  digest?_eq_ofFn state (by decide)

theorem take_full_iff : (data.take rate).length = rate ↔ rate ≤ data.length := by
  rw [List.length_take]
  omega

theorem blocks_of_full (h : rate ≤ data.length) :
    blocks data =
      fullBlock (data.take rate) (take_full_iff.mpr h) :: blocks (data.drop rate) := by
  rw [blocks, dif_pos]

theorem blocks_of_short (h : data.length < rate) : blocks data = [lastBlock data] := by
  rw [blocks, dif_neg]
  rw [take_full_iff]
  omega

theorem addBytes?_full {start : Nat} (h : start + rate ≤ data.length) (state : State) :
    addBytes? data start rate state = some (addBlock state (fullBlock ((data.drop start).take rate)
      (by rw [List.length_take, List.length_drop]; omega))) := by
  rw [addBytes?_eq_some le_rfl h]
  apply congrArg some
  apply state_ext
  intro j
  rw [byteAt_foldl, byteAt_addBlock]
  by_cases hj : j.val < rate
  · simp [hj, fullBlock]
  · simp [hj]

/-- The last bytes and the padding are added at the places where the last block has them. -/
theorem addLast?_eq_some {start length : Nat} (hdata : start + length = data.length)
    (hlength : length < rate) (state : State) :
    addLast? data start length state = some (addBlock state (lastBlock (data.drop start))) := by
  have hend : rate - 1 < rate := by decide
  rw [addLast?, addBytes?_eq_some hlength.le hdata.le, Option.bind_eq_bind, Option.bind_some,
    addByte?_eq_some hlength, Option.bind_some, addByte?_eq_some hend]
  apply congrArg some
  apply state_ext
  intro j
  rw [byteAt_addByte, byteAt_addByte, byteAt_foldl, byteAt_addBlock]
  by_cases hj : j.val < rate
  · have hrest : data.length - start = length := by omega
    have hread : (if h : j.val < length then data.get ⟨start + j.val, by omega⟩ else 0) =
        (data.drop start).getD j.val 0 := by
      by_cases hin : j.val < length
      · have hplace : start + j.val < data.length := by omega
        simp [hin, List.getElem?_eq_getElem hplace]
      · have hplace : data.length ≤ start + j.val := by omega
        simp [hin, List.getElem?_eq_none hplace]
    rw [dif_pos hj, lastBlock, Vector.getElem_ofFn, List.length_drop, hrest, hread]
    simp only [UInt8.xor_assoc]
  · have hlt : ¬ j.val < length := by omega
    have hne : ¬ j.val = length := by omega
    have hlast : ¬ j.val = rate - 1 := by omega
    simp [hj, hlt, hne, hlast]

/-- The states that are permuted while blocks are absorbed. -/
def permutedBy (f : State → State) : State → List Block → List State
  | _, [] => []
  | state, block :: input =>
    addBlock state block :: permutedBy f (f (addBlock state block)) input

theorem absorb_cons (f : State → State) (state : State) (block : Block) (input : List Block) :
    absorb f state (block :: input) = absorb f (f (addBlock state block)) input := rfl

/-- What stands from `start` on is absorbed as its blocks are. -/
theorem absorbFrom?_eq_some {start length : Nat} (h : start + length = data.length)
    (run : Absorbing) :
    absorbFrom? f data start length run =
      some ⟨absorb f run.state (blocks (data.drop start)),
        run.permuted ++ permutedBy f run.state (blocks (data.drop start))⟩ := by
  fun_induction absorbFrom? f data start length run with
  | case1 start length run hfull ih =>
    have hlength : rate ≤ (data.drop start).length := by
      rw [List.length_drop]
      omega
    rw [addBytes?_full (by omega), Option.bind_eq_bind, Option.bind_some, ih _ (by omega),
      blocks_of_full hlength, absorb_cons, permutedBy, List.drop_drop]
    simp [Absorbing.permute]
  | case2 start length run hshort =>
    have hlength : (data.drop start).length < rate := by
      rw [List.length_drop]
      omega
    rw [addLast?_eq_some h (Nat.not_le.mp hshort), blocks_of_short hlength, absorb_cons, permutedBy,
      permutedBy]
    generalize addBlock run.state (lastBlock (data.drop start)) = last
    rfl

theorem inPlace?_eq_some (f : State → State) (data : Bytes) :
    inPlace? f data =
      some (sponge f data, permutedBy f (Vector.replicate 25 0) (blocks data)) := by
  rw [inPlace?, absorbFrom?_eq_some (Nat.zero_add _), Option.bind_eq_bind, Option.bind_some,
    digest?_eq_some]
  rfl

end EvmAssembly.Keccak

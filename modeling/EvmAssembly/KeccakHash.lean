import EvmAssembly.SourceText

/-!
# The Keccak-256 hash and function selectors

The state is a square of five by five lanes of 64 bits; lane `x + 5 * y` stands in column `x` and
row `y`. A round mixes the columns, rotates and moves the lanes, combines each row and adds a
constant; the permutation is 24 rounds.

The input is cut into blocks of 136 bytes, the last of which is filled up with padding. Each block
is added to the state and the state permuted; the first 32 bytes of the last state are the digest.
The permutation is a parameter. A function is selected by the first bytes of the hash of its
signature.
-/

namespace EvmAssembly.Keccak

abbrev State := Vector UInt64 25

def rotateLeft (lane : UInt64) (count : UInt64) : UInt64 :=
  (lane <<< count) ||| (lane >>> (64 - count))

def columnParity (a : State) : Vector UInt64 5 :=
  Vector.ofFn fun x => a[x.val] ^^^ a[x.val + 5] ^^^ a[x.val + 10] ^^^ a[x.val + 15] ^^^
    a[x.val + 20]

/-- Adds to each lane the parities of the two neighbouring columns, one of them rotated. -/
def mixColumns (a : State) : State :=
  let parity := columnParity a
  let change : Vector UInt64 5 := Vector.ofFn fun x =>
    parity[(x.val + 4) % 5] ^^^ rotateLeft parity[(x.val + 1) % 5] 1
  Vector.ofFn fun i => a[i.val] ^^^ change[i.val % 5]

/-- How far each lane is rotated. -/
def rotations : Vector UInt64 25 :=
  #v[0, 1, 62, 28, 27, 36, 44, 6, 55, 20, 3, 10, 43, 25, 39, 41, 45, 15, 21, 8, 18, 2, 61, 56, 14]

/-- Rotates the lanes and moves the lane of column `x` and row `y` to column `y` and row
`2 * x + 3 * y`. -/
def moveLanes (a : State) : State :=
  Vector.ofFn fun i =>
    let column := i.val % 5
    let row := i.val / 5
    let source := (column + 3 * row) % 5 + 5 * column
    rotateLeft a[source] rotations[source]

/-- Adds to each lane the next one in its row, negated, where the one after that is set. -/
def combineRows (a : State) : State :=
  Vector.ofFn fun i =>
    let row := 5 * (i.val / 5)
    a[i.val] ^^^ (~~~ a[(i.val + 1) % 5 + row] &&& a[(i.val + 2) % 5 + row])

def addConstant (constant : UInt64) (a : State) : State := a.set 0 (a[0] ^^^ constant)

def round (a : State) (constant : UInt64) : State :=
  addConstant constant (combineRows (moveLanes (mixColumns a)))

def roundConstants : List UInt64 :=
  [0x0000000000000001, 0x0000000000008082, 0x800000000000808a, 0x8000000080008000,
    0x000000000000808b, 0x0000000080000001, 0x8000000080008081, 0x8000000000008009,
    0x000000000000008a, 0x0000000000000088, 0x0000000080008009, 0x000000008000000a,
    0x000000008000808b, 0x800000000000008b, 0x8000000000008089, 0x8000000000008003,
    0x8000000000008002, 0x8000000000000080, 0x000000000000800a, 0x800000008000000a,
    0x8000000080008081, 0x8000000000008080, 0x0000000080000001, 0x8000000080008008]

def permute (a : State) : State := roundConstants.foldl round a

/-- The number of bytes added to the state at a time. -/
def rate : Nat := 136

abbrev Block := Vector UInt8 rate

/-- A piece of the input that fills a block. -/
def fullBlock (chunk : Bytes) (h : chunk.length = rate) : Block :=
  Vector.ofFn fun i => chunk[i.val]

/-- What is left of the input, with a one added behind it and 0x80 to the last byte of the block. -/
def lastBlock (data : Bytes) : Block :=
  Vector.ofFn fun i =>
    data.getD i.val 0 ^^^ (if i.val = data.length then 0x01 else 0) ^^^
      (if i.val = rate - 1 then 0x80 else 0)

/-- The blocks that are added to the state, in order. -/
def blocks (data : Bytes) : List Block :=
  if h : (data.take rate).length = rate then
    fullBlock (data.take rate) h :: blocks (data.drop rate)
  else [lastBlock data]
termination_by data.length
decreasing_by simp only [List.length_take, List.length_drop, rate] at *; omega

/-- Adds a byte at a place of the state, counting the bytes of each lane from the lowest. -/
def addByte (state : State) (b : UInt8) (i : Fin rate) : State :=
  have : i.val / 8 < 25 := by have := i.isLt; simp only [rate] at this; omega
  state.set (i.val / 8) (state[i.val / 8] ^^^ (b.toUInt64 <<< (8 * (i.val % 8)).toUInt64))

def addBlock (state : State) (block : Block) : State :=
  Fin.foldl rate (fun state i => addByte state block[i] i) state

def absorb (f : State → State) (state : State) (input : List Block) : State :=
  input.foldl (fun state block => f (addBlock state block)) state

/-- The first 32 bytes of a state. -/
def digest (state : State) : Bytes :=
  List.ofFn fun i : Fin 32 => (state[i.val / 8] >>> (8 * (i.val % 8)).toUInt64).toUInt8

def sponge (f : State → State) (data : Bytes) : Bytes :=
  digest (absorb f (Vector.replicate 25 0) (blocks data))

def keccak256 (data : Bytes) : Bytes := sponge permute data

theorem length_keccak256 (data : Bytes) : (keccak256 data).length = 32 := by
  simp [keccak256, sponge, digest]

end EvmAssembly.Keccak

namespace EvmAssembly

/-- The first `width` bytes of the hash, or all 32 of them. -/
def functionSelector (signature : Bytes) (width : Nat) : Bytes :=
  (Keccak.keccak256 signature).take width

theorem length_functionSelector (signature : Bytes) (width : Nat) :
    (functionSelector signature width).length = min width 32 := by
  rw [functionSelector, List.length_take, Keccak.length_keccak256]

end EvmAssembly

import EvmAssembly.Proofs.SpongePadding

/-!
# Inputs with the same blocks

What the hash adds to its state between two permutations is a block of the padded input, whatever
the permutation is. No two inputs have the same blocks, so an input is known by what is added.
-/

namespace EvmAssembly.Keccak

variable {f : State → State} {x y : Bytes}

/-- Where the padding of the longer input begins, that of the shorter one has no one left. -/
private theorem padding_ne_append {first second : Nat} {text : Bytes} (h : text ≠ []) :
    padding first ≠ text ++ padding second := by
  intro heq
  have hlength := congrArg List.length heq
  have hpositive : 0 < (padding second).length := by
    rw [length_padding]
    omega
  have htext := List.length_pos_iff.mpr h
  rw [List.length_append] at hlength
  have hone : (padding first)[text.length]? = (padding second)[0]? := by
    rw [heq, List.getElem?_append_right le_rfl, Nat.sub_self]
  rw [List.getElem?_eq_getElem (by omega), List.getElem?_eq_getElem hpositive, padding_getElem,
    padding_getElem, if_neg htext.ne', if_pos rfl] at hone
  have hend : text.length + 1 = (padding first).length ↔ 0 + 1 = (padding second).length := by
    omega
  simp only [hend] at hone
  split at hone <;> exact absurd hone (by decide)

theorem padded_injective : Function.Injective padded := by
  intro x y h
  rw [padded_eq, padded_eq, List.append_eq_append_iff] at h
  rcases h with ⟨text, hx, hy⟩ | ⟨text, hx, hy⟩
  · cases text with
    | nil => rw [hx, List.append_nil]
    | cons c text => exact absurd hy (padding_ne_append (List.cons_ne_nil c text))
  · cases text with
    | nil => rw [hx, List.append_nil]
    | cons c text => exact absurd hy (padding_ne_append (List.cons_ne_nil c text))

theorem blocks_injective : Function.Injective blocks := by
  intro x y h
  apply padded_injective
  rw [← flatten_blocks, ← flatten_blocks, h]

/-- The bytes that make one state of another when they are added to it. -/
def addedBytes (before after : State) : Bytes :=
  List.ofFn fun i => byteAt before i ^^^ byteAt after i

/-- What was added to the state before each permutation, from the states that were permuted. -/
def added (f : State → State) : State → List State → List Bytes
  | _, [] => []
  | before, state :: more => addedBytes before state :: added f (f state) more

/-- A block with the bytes of the state that nothing is added to. -/
def Block.widened (block : Block) : Bytes := block.toList ++ List.replicate 64 0

theorem addedBytes_addBlock (state : State) (block : Block) :
    addedBytes state (addBlock state block) = block.widened := by
  rw [addedBytes, Block.widened]
  apply List.ext_getElem
  · rw [List.length_ofFn, List.length_append, block.length_toList, List.length_replicate]
    rfl
  · intro i hi _
    rw [List.getElem_ofFn, byteAt_addBlock, ← UInt8.xor_assoc, UInt8.xor_self, UInt8.zero_xor]
    by_cases hin : i < rate
    · rw [dif_pos hin, List.getElem_append_left (by rwa [block.length_toList]),
        Vector.getElem_toList]
    · rw [dif_neg hin, List.getElem_append_right (by rw [block.length_toList]; omega),
        List.getElem_replicate]

theorem added_permutedBy (f : State → State) (state : State) (input : List Block) :
    added f state (permutedBy f state input) = input.map Block.widened := by
  induction input generalizing state with
  | nil => rfl
  | cons block input ih =>
    rw [permutedBy, added, addedBytes_addBlock, ih, List.map_cons]

theorem length_permutedBy (f : State → State) (state : State) (input : List Block) :
    (permutedBy f state input).length = input.length := by
  induction input generalizing state with
  | nil => rfl
  | cons block input ih => rw [permutedBy, List.length_cons, ih, List.length_cons]

theorem Block.widened_injective : Function.Injective Block.widened := by
  intro first second h
  exact Vector.toList_inj.mp (List.append_cancel_right h)

/-- An input is permuted once for each block of 136 bytes and once more, and the blocks that are
added between the permutations are those of no other input, even with another permutation. -/
theorem added_determine_input (f g : State → State) (x y : Bytes) :
    ∃ states others : List State,
      inPlace? f x = some (sponge f x, states) ∧ inPlace? g y = some (sponge g y, others) ∧
      states.length = x.length / 136 + 1 ∧
      added f (Vector.replicate 25 0) states = (blocks x).map Block.widened ∧
      (added f (Vector.replicate 25 0) states = added g (Vector.replicate 25 0) others ↔ x = y) ∧
      (blocks x = blocks y ↔ x = y) := by
  refine ⟨_, _, inPlace?_eq_some f x, inPlace?_eq_some g y, ?_, added_permutedBy f _ _, ?_,
    blocks_injective.eq_iff⟩
  · rw [length_permutedBy, length_blocks]
    rfl
  · rw [added_permutedBy, added_permutedBy, (Block.widened_injective.list_map).eq_iff]
    exact blocks_injective.eq_iff

end EvmAssembly.Keccak

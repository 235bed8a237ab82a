import EvmAssembly.Proofs.ErrorPlaces

/-!
# Offsets and places

The place of a byte is a line and a column. Both are counted in the bytes before it, and together
they tell which byte it is.
-/

namespace EvmAssembly

variable {place : Location} {s text : Bytes}

namespace Location

theorem after_line (place : Location) (text : Bytes) :
    (place.after text).line = place.line + text.count newline := by
  induction text generalizing place with
  | nil => rfl
  | cons c text ih =>
    rw [after_cons, ih, step]
    by_cases hc : c = newline
    · rw [if_pos hc, hc, List.count_cons_self]
      exact Nat.add_right_comm _ _ _
    · rw [if_neg hc, List.count_cons_of_ne hc]

theorem after_known (h : place.known = true) (text : Bytes) : (place.after text).known = true := by
  simp only [known, decide_eq_true_eq] at h ⊢
  rw [after_line]
  omega

/-- The place behind a text is another one, unless the text is empty. -/
theorem after_eq_self_iff : place.after text = place ↔ text = [] := by
  constructor
  · intro h
    have hline := congrArg line h
    rw [after_line] at hline
    have hnewline : newline ∉ text := List.count_eq_zero.mp (by omega)
    have hcolumn := congrArg column h
    rw [after_of_notMem hnewline] at hcolumn
    exact List.length_eq_zero_iff.mp (Nat.add_eq_left.mp hcolumn)
  · rintro rfl
    rfl

end Location

/-- The line and column of the byte with `offset` bytes before it: lines are counted by newlines,
columns by the bytes since the last newline, both from one. -/
def lineColumn (s : Bytes) (offset : Nat) : Location :=
  ⟨1 + (s.take offset).count newline,
    1 + ((s.take offset).reverse.takeWhile (· ≠ newline)).length⟩

theorem lineColumn_eq_ofOffset (s : Bytes) (offset : Nat) :
    lineColumn s offset = Location.ofOffset s offset := (Location.start_after _).symm

theorem lineColumn_length_append (before behind : Bytes) :
    lineColumn (before ++ behind) before.length = Location.start.after before := by
  rw [lineColumn_eq_ofOffset, Location.ofOffset, List.take_left]

private theorem lineColumn_ne_of_lt {low high : Nat} (hlow : low < high) (hhigh : high ≤ s.length) :
    lineColumn s low ≠ lineColumn s high := by
  intro h
  rw [lineColumn_eq_ofOffset, lineColumn_eq_ofOffset, Location.ofOffset, Location.ofOffset,
    ← List.take_append_drop low (s.take high), List.take_take, Nat.min_eq_left (by omega),
    Location.after_append, eq_comm, Location.after_eq_self_iff] at h
  have hlength := congrArg List.length h
  simp only [List.length_drop, List.length_take, List.length_nil] at hlength
  omega

/-- Two bytes of a source have different places. -/
theorem lineColumn_injective {offset other : Nat} (hoffset : offset ≤ s.length)
    (hother : other ≤ s.length) (h : lineColumn s other = lineColumn s offset) :
    other = offset := by
  rcases Nat.lt_trichotomy other offset with hlt | heq | hlt
  · exact absurd h (lineColumn_ne_of_lt hlt hoffset)
  · exact heq
  · exact absurd h.symm (lineColumn_ne_of_lt hlt hother)

end EvmAssembly

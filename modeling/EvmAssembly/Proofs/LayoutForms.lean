import EvmAssembly.Proofs.SourceGrammar

/-!
# The forms of layout

Layout is made of blanks, separators and comments. A comment runs up to a newline, which is a
separator outside it, or to the end of the source. Layout parts two statements if it holds a
separator outside comments, and reading agrees with this: a statement may be followed by layout and
another statement exactly if the layout parts them.
-/

namespace EvmAssembly

variable {s layout rest : Bytes} {parted commented : Bool}

/-- A text is layout; `parted` says that it holds a separator outside comments, and `commented` that
it ends with a comment. -/
inductive IsLayout : (parted commented : Bool) → Bytes → Prop where
  | nil : IsLayout false false []
  | lastComment {text : Bytes} (line : newline ∉ text) :
      IsLayout false true ('#'.toUInt8 :: text)
  | blank {c : UInt8} {rest : Bytes} {parted commented : Bool} (space : isBlank c = true)
      (more : IsLayout parted commented rest) : IsLayout parted commented (c :: rest)
  | separator {c : UInt8} {rest : Bytes} {parted commented : Bool} (parts : isSeparator c = true)
      (more : IsLayout parted commented rest) : IsLayout true commented (c :: rest)
  | comment {text rest : Bytes} {commented : Bool} (line : newline ∉ text)
      (more : IsLayout true commented (newline :: rest)) :
      IsLayout true commented ('#'.toUInt8 :: (text ++ newline :: rest))

theorem IsLayout.layoutEnd_eq (h : IsLayout parted commented s) :
    layoutEnd false s = some commented := by
  have hblank : ∀ {c : UInt8} {rest : Bytes}, (isBlank c || isSeparator c) = true →
      layoutEnd false (c :: rest) = layoutEnd false rest := by
    intro c rest hc
    have hsingle : layoutEnd false [c] = some false :=
      layoutEnd_of_all fun d hd => by rwa [List.mem_singleton.mp hd]
    exact layoutEnd_append hsingle rest
  induction h with
  | nil => rfl
  | lastComment hline => exact layoutEnd_comment hline
  | blank hc _ ih => rw [hblank (by simp [hc]), ih]
  | separator hc _ ih => rw [hblank (by simp [hc]), ih]
  | @comment text rest commented hline _ ih =>
    rw [hblank rfl] at ih
    rw [← ih]
    exact layoutEnd_append (layoutEnd_comment hline) (newline :: rest)

/-- Every layout has one of these forms. -/
theorem exists_isLayout (h : layoutEnd false s = some commented) :
    ∃ parted, IsLayout parted commented s := by
  induction hlength : s.length using Nat.strongRecOn generalizing s with
  | _ length ih =>
    cases s with
    | nil =>
      cases h
      exact ⟨false, .nil⟩
    | cons c s =>
      rw [layoutEnd] at h
      split at h
      · rename_i hcomment
        subst hcomment
        have hsplit := List.takeWhile_append_dropWhile (p := (· ≠ newline)) (l := s)
        have hline := newline_notMem_takeWhile s
        have hstop := startsWith_dropWhile (· ≠ newline) s
        cases htail : s.dropWhile (· ≠ newline) with
        | nil =>
          rw [htail, List.append_nil] at hsplit
          rw [hsplit] at hline
          rw [layoutEnd_comment hline] at h
          cases h
          exact ⟨false, .lastComment hline⟩
        | cons d rest =>
          rw [htail] at hsplit hstop
          obtain rfl : d = newline := by simpa using hstop
          rw [← hsplit, layoutEnd_append (layoutEnd_comment hline)] at h
          have hshorter := congrArg List.length hsplit
          rw [List.length_append, List.length_cons] at hshorter
          rw [List.length_cons] at hlength
          obtain ⟨parted, hmore⟩ := ih rest.length (by omega) h rfl
          rw [← hsplit]
          exact ⟨true, .comment hline (.separator rfl hmore)⟩
      · split at h
        · rename_i hc
          obtain ⟨parted, hmore⟩ := ih s.length (by rw [← hlength, List.length_cons]; omega) h rfl
          rcases Bool.or_eq_true_iff.mp hc with hblank | hseparator
          · exact ⟨parted, .blank hblank hmore⟩
          · exact ⟨true, .separator hseparator hmore⟩
        · cases h

/-- Layout may follow a statement if it parts it from what comes next, or if nothing comes. -/
theorem IsLayout.mayFollow_append (h : IsLayout parted commented s)
    (hrest : parted = true ∨ rest = []) : mayFollow (s ++ rest) = true := by
  induction h with
  | nil =>
    obtain rfl := hrest.resolve_left Bool.noConfusion
    rfl
  | lastComment => rfl
  | blank hc _ ih =>
    rw [List.cons_append, mayFollow_cons, if_pos hc]
    exact ih hrest
  | separator hc => simp [mayFollow_cons, isBlank_of_isSeparator hc, hc]
  | comment => rfl

/-- Layout that does not part two statements is blank. -/
theorem IsLayout.all_isBlank (h : IsLayout parted commented s) (hparted : parted = false)
    (hcommented : commented = false) : s.all isBlank = true := by
  induction h with
  | nil => rfl
  | lastComment => cases hcommented
  | blank hc _ ih => rw [List.all_cons, hc, ih hparted hcommented, Bool.true_and]
  | separator => cases hparted
  | comment => cases hparted

/-- Two statements in a row are parted by the layout between them. -/
theorem isLayout_of_mayFollow {statement : Statement} (hl : layoutEnd false layout = some false)
    (hs : statement.Valid) (h : mayFollow (layout ++ (statement.text ++ rest)) = true) :
    IsLayout true false layout := by
  obtain ⟨parted, hlayout⟩ := exists_isLayout hl
  cases parted with
  | true => exact hlayout
  | false =>
    rw [not_mayFollow_blanks (hlayout.all_isBlank rfl rfl) hs] at h
    cases h

end EvmAssembly

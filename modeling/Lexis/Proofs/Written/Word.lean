import Lexis.Proofs.Lookahead.Front
import Lexis.Proofs.WellFormed

/-!
# Written words, comments and operators

Keywords and operators are read back from their spelling, atoms behind a number sign, identifiers between
backticks, and documentation behind three slashes and a space.
-/

namespace Lexis

open Text

namespace Word

theorem run_append {word after : List Char} (hword : ∀ c ∈ word, isPart c = true)
    (hafter : BlankHead after) : run (word ++ after) = word :=
  takeWhile_append_stop hword fun c hc => isPart_of_isBlank (hafter c hc)

/-- Every reserved word is a word. -/
theorem isWord_spelling (word : Keyword) :
    ∃ c rest, word.spelling.toList = c :: rest ∧ c.isAlpha = true ∧
      (c :: rest).all isPart = true := by
  cases word <;> exact ⟨_, _, rfl, by decide, by decide⟩

theorem read_keyword (word : Keyword) {after : List Char} (hafter : BlankHead after) :
    read (word.spelling.toList ++ after) = .found (.ofKeyword word) word.spelling.toList.length := by
  have hrun : run (word.spelling.toList ++ after) = word.spelling.toList := by
    obtain ⟨c, rest, hspelling, -, hparts⟩ := isWord_spelling word
    rw [hspelling]
    exact run_append (List.all_eq_true.1 hparts) hafter
  rw [read, hrun, classify, String.ofList_toList, Keyword.ofSpelling?_spelling]

theorem readMarked_atom {c : Char} {rest after : List Char} (hc : c.isAlpha = true)
    (hrest : ∀ d ∈ rest, isPart d = true) (hafter : BlankHead after) :
    readMarked (c :: (rest ++ after)) =
      .found (.ofValue .atom (c :: rest)) (1 + (c :: rest).length) := by
  have hquote : Quoted.isQuote c = false := by
    cases hquote : Quoted.isQuote c with
    | false => rfl
    | true =>
      simp only [Quoted.isQuote, Bool.or_eq_true, beq_iff_eq] at hquote
      rcases hquote with rfl | rfl <;> exact absurd hc (by decide)
  have hrun : run (c :: (rest ++ after)) = c :: rest := by
    rw [run_cons hc, run_append hrest hafter]
  rw [readMarked, hquote, hc, hrun]
  rfl

theorem readExtended_ident {word : List Char} (hword : ValueKind.ident.Admits word)
    (after : List Char) :
    readExtended (word ++ '\x60' :: after) = .found (.ofValue .ident word) (1 + word.length + 1) := by
  have hrun : ((word ++ '\x60' :: after).takeWhile fun c => c != '\x60' && !isLineEnd c) = word := by
    apply takeWhile_append_stop
    · intro c hc
      obtain ⟨htick, hend⟩ := hword c hc
      simp [htick, hend]
    · rintro _ ⟨⟩
      rfl
  unfold readExtended
  dsimp only
  rw [hrun, List.drop_left]
  rfl

end Word

namespace Comment

theorem readLine_documentation {line after : List Char} (hline : ValueKind.documentation.Admits line)
    (hafter : LineEndHead after) :
    readLine ('/' :: ' ' :: (line ++ after)) =
      .found (some (.ofValue .documentation line)) (4 + line.length) := by
  have hrest : lineRest (' ' :: line ++ after) = ' ' :: line := by
    apply takeWhile_append_stop
    · intro c hc
      rcases List.mem_cons.1 hc with rfl | hc
      · rfl
      · rw [hline c hc]
        rfl
    · intro c hc
      rw [hafter c hc]
      rfl
  rw [readLine_of_isDocumentation rfl, List.drop_succ_cons, List.drop_zero, ← List.cons_append, hrest]
  rw [List.length_cons, documentationText, if_pos (by decide)]
  congr 1
  omega

end Comment

namespace Operator

/-- An operator that can be reached is found when nothing follows it, and so when white space does. -/
theorem munch?_spelling {op : Operator} (h : isReachable op.spelling = true) {after : List Char}
    (hafter : BlankHead after) : munch? (op.spelling.toList ++ after) = some op := by
  have hall : (all.all fun op => !isReachable op.spelling || munch? op.spelling.toList == some op) =
      true := by
    decide +kernel
  have halone : munch? op.spelling.toList = some op := by
    have hop := List.all_eq_true.1 hall op (mem_all op)
    simpa [h] using hop
  have hlength := String.length_toList (s := op.spelling)
  have hone := one_le_length_spelling op
  cases hspelling : op.spelling.toList with
  | nil =>
    rw [hspelling, List.length_nil] at hlength
    omega
  | cons c rest =>
    rw [hspelling] at halone hlength
    rw [← List.append_nil rest] at halone
    exact munch?_congr halone (Or.inr ⟨Nat.le_of_eq hlength.symm, hafter⟩)

end Operator

end Lexis

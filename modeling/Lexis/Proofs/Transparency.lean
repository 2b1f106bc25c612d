import Lexis.Proofs.Tokens

/-!
# Trivia is transparent

Any number of pieces of trivia in front of a text, each of them white space, a closed block comment or a line
comment with its line break, leave what is read behind them as it is, positions included. Main statement:
`Lexer.nextToken_of_trivia_items`.
-/

namespace Lexis

open Text

/-- One piece of trivia: a white-space character, a block comment up to its first closing mark, or a line
comment of a remark with the character that ends its line. -/
inductive TriviaItem : List Char → Prop
  | blank {c : Char} : isBlank c = true → TriviaItem [c]
  | block {body : List Char} : Comment.IsClosed body → TriviaItem ('/' :: '*' :: body)
  | line {remark : List Char} {c : Char} :
      Comment.IsRemark remark → isLineEnd c = true → TriviaItem ('/' :: '/' :: (remark ++ [c]))

/-- A piece of trivia is trivia whatever follows it, since a line comment has its line break. -/
theorem TriviaItem.trivia {item : List Char} (h : TriviaItem item) (text : List Char) :
    Trivia item text := by
  cases h with
  | blank hblank => exact .blank hblank .nil
  | @block body hclosed =>
    have hblock := Trivia.block hclosed (@Trivia.nil text)
    rwa [List.append_nil] at hblock
  | @line remark c hremark hend =>
    have hbreak : Trivia [c] text := .blank (isBlank_of_isLineEnd hend) .nil
    refine .line hremark ?_ hbreak
    rintro _ ⟨⟩
    exact hend

theorem Trivia.of_items {items : List (List Char)} (h : ∀ item ∈ items, TriviaItem item)
    (text : List Char) : Trivia items.flatten text := by
  induction items with
  | nil => exact .nil
  | cons item items ih =>
    rw [List.flatten_cons]
    have hitem := (h item List.mem_cons_self).trivia (items.flatten ++ text)
    exact hitem.append (ih fun later hlater => h later (List.mem_cons_of_mem item hlater))

namespace Lexer

/-- A pull in front of pieces of trivia hands out what a pull behind them hands out, at the same position,
and leads to the same lexer; so do all pulls from there on. -/
theorem nextToken_of_trivia_items {lexer : Lexer} {items : List (List Char)} {text : List Char}
    (hitems : ∀ item ∈ items, TriviaItem item)
    (hrest : lexer.cursor.rest = items.flatten ++ text) :
    let place := lexer.cursor.place.afterText lexer.config.tabSize items.flatten
    let behind : Lexer := ⟨lexer.config, ⟨text, place⟩, lexer.done⟩
    lexer.skip items.flatten.length = behind ∧ lexer.nextToken = behind.nextToken ∧
      lexer.steps = behind.steps := by
  intro place behind
  have hskip : lexer.skip items.flatten.length = behind := skip_of_append hrest
  have hnext : lexer.nextToken = behind.nextToken := by
    rw [nextToken_of_trivia hrest (.of_items hitems text), hskip]
  exact ⟨hskip, hnext, steps_congr hnext⟩

/-- Behind an error stand a remark of four slashes that opens no block comment, and a block comment that does
not nest. -/
theorem nextToken_of_trivia_items_remark :
    let items := [['/', '/', '/', '/', '*', '\r'], ['/', '*', '/', '*', '/']]
    let lexer : Lexer := ⟨.standard, ⟨items.flatten ++ ['x'], ⟨1, 2⟩⟩, false⟩
    (ofSource .standard "_////*\r/*/*/x").pulled 1 = lexer ∧
    (∀ item ∈ items, TriviaItem item) ∧
    lexer.nextToken = nextToken ⟨.standard, ⟨['x'], ⟨1, 13⟩⟩, false⟩ := by
  intro items lexer
  have hlexer : (ofSource .standard "_////*\r/*/*/x").pulled 1 =
      ⟨.standard, ⟨items.flatten ++ ['x'], ⟨1, 2⟩⟩, false⟩ := by cbv
  have hitems : ∀ item ∈ items, TriviaItem item := by
    have hremark : Comment.IsRemark ['/', '/', '*'] :=
      ⟨by simp [isLineEnd], by rintro _ ⟨⟩; rfl⟩
    have hclosed : Comment.IsClosed ['/', '*', '/'] := ⟨⟨['/'], rfl⟩, by decide⟩
    intro item hitem
    rcases List.mem_cons.1 hitem with rfl | hitem
    · exact .line (c := '\r') hremark rfl
    · rw [List.mem_singleton.1 hitem]
      exact .block hclosed
  have hplace : Place.afterText 4 ⟨1, 2⟩ items.flatten = ⟨1, 13⟩ := by decide
  obtain ⟨-, hnext, -⟩ := @nextToken_of_trivia_items lexer items ['x'] hitems rfl
  refine ⟨hlexer, hitems, ?_⟩
  rw [hnext, ← hplace]
  rfl

end Lexer

end Lexis

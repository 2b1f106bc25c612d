import Lexis.Proofs.Strings.Encoding

/-!
# The lines of a text block

A text block is written line by line. Each line stands behind two backslashes, and in front of these, from the
second line on, a line feed and any white space. Its text is the lines joined by single line feeds, however
they are indented. It ends where the text ends, or in front of a line that starts with no backslash. Main
statement: `Lexer.nextToken_textBlock`.
-/

namespace Lexis

open Text

namespace TextBlock

/-- A line as it is written: each character by itself, unless it is a backslash or a line feed, or by one of
its escapes. -/
inductive EncodesLine : List Char → List Char → Prop
  | nil : EncodesLine [] []
  | verbatim {c : Char} {line body : List Char} :
      c ≠ '\\' → c ≠ '\n' → EncodesLine line body → EncodesLine (c :: line) (c :: body)
  | escape {c : Char} {chars line body : List Char} :
      Escape.Encodes c chars → EncodesLine line body → EncodesLine (c :: line) (chars ++ body)

/-- The lines of a text block as they are written behind its first two backslashes, with white space of any
kind, blank lines too, in front of the two backslashes of each further line. -/
inductive Encodes : List (List Char) → List Char → Prop
  | single {line body : List Char} : EncodesLine line body → Encodes [line] body
  | cons {line body indent more : List Char} {lines : List (List Char)} :
      EncodesLine line body → (∀ c ∈ indent, isBlank c = true) → Encodes lines more →
      Encodes (line :: lines) (body ++ '\n' :: (indent ++ '\\' :: '\\' :: more))

theorem Encodes.ne_nil {lines : List (List Char)} {body : List Char} (h : Encodes lines body) :
    lines ≠ [] := by
  cases h with
  | single => exact List.cons_ne_nil _ _
  | cons => exact List.cons_ne_nil _ _

/-- A line is read as what it stands for, and the block goes on behind it. -/
theorem read_encodedLine {line body : List Char} (h : EncodesLine line body) (rest : List Char) :
    read (body ++ rest) = (read rest).cons ⟨line, body.length⟩ := by
  induction h with
  | nil => exact (Reading.cons_nil _).symm
  | verbatim hback hline _ ih =>
    rw [List.cons_append, read_verbatim hback hline, ih, Reading.cons_cons, List.length_cons,
      Nat.add_comm]
    rfl
  | escape hchars _ ih =>
    rw [List.append_assoc, hchars.resume read_escape, ih, Reading.cons_cons, List.length_append]
    rfl

/-- All lines are read, joined by line feeds. -/
theorem read_encoded {lines : List (List Char)} {body : List Char} (h : Encodes lines body)
    (rest : List Char) :
    read (body ++ rest) = (read rest).cons ⟨['\n'].intercalate lines, body.length⟩ := by
  induction h with
  | single hline => rw [read_encodedLine hline, List.intercalate_singleton]
  | @cons line body indent more lines hline hindent hlines ih =>
    have hjoin : ['\n'].intercalate (line :: lines) =
        line ++ (['\n'] ++ ['\n'].intercalate lines) := by
      rw [List.intercalate_cons_of_ne_nil hlines.ne_nil, List.append_assoc]
    have hlength : (body ++ '\n' :: (indent ++ '\\' :: '\\' :: more)).length =
        body.length + (1 + indent.length + 2 + more.length) := by
      simp only [List.length_append, List.length_cons]
      omega
    have hrest : body ++ '\n' :: (indent ++ '\\' :: '\\' :: more) ++ rest =
        body ++ '\n' :: (indent ++ '\\' :: '\\' :: (more ++ rest)) := by
      simp
    rw [hrest, read_encodedLine hline, read_line_more hindent, ih, Reading.cons_cons,
      Reading.cons_cons, hjoin, hlength]
    simp only [List.append_assoc, Nat.add_assoc]

/-- The block ends in front of a line that starts with no backslash, and where the text ends. -/
theorem read_line_stop {indent rest : List Char} (hindent : ∀ c ∈ indent, isBlank c = true)
    (hrest : ∀ c ∈ rest.head?, isBlank c = false ∧ c ≠ '\\') :
    read ('\n' :: (indent ++ rest)) = .found [] (1 + indent.length) := by
  cases rest with
  | nil => rw [List.append_nil, read_line_nil hindent]
  | cons c rest =>
    obtain ⟨hblank, hback⟩ := hrest c rfl
    exact read_line_end hindent hblank hback rest

end TextBlock

namespace Lexer

section

variable {lexer : Lexer} {lines : List (List Char)} {body after : List Char}

/-- Behind the lines of a text block, what follows them decides what is read. -/
theorem front_block (h : TextBlock.Encodes lines body) (after : List Char) :
    Front.read '\\' ('\\' :: (body ++ after)) =
      (((TextBlock.read after).cons ⟨['\n'].intercalate lines, body.length⟩).map fun text =>
        some (.ofValue .string text)).shift 2 := by
  rw [Front.read_backslash_backslash, TextBlock.read_encoded h]

variable (hrest : lexer.cursor.rest = '\\' :: '\\' :: (body ++ after))

include hrest

theorem rest_skip_block {last rest : List Char} (hafter : after = last ++ rest) :
    (lexer.skip (2 + body.length + last.length)).cursor.rest = rest := by
  have hsplit : lexer.cursor.rest = ('\\' :: '\\' :: (body ++ last)) ++ rest := by
    rw [hrest, hafter]
    simp
  have hlength : ('\\' :: '\\' :: (body ++ last)).length = 2 + body.length + last.length := by
    simp only [List.length_cons, List.length_append]
    omega
  exact rest_skip_of_length hsplit hlength

variable (h : TextBlock.Encodes lines body) (hlength : lexer.cursor.rest.length ≤ ceiling)

include h hlength

theorem nextToken_block {n : Nat} (hread : TextBlock.read after = .found [] n) :
    lexer.nextToken =
      (.ok ⟨.ofValue .string (['\n'].intercalate lines),
          ⟨lexer.cursor.place.row, lexer.cursor.place.col, 2 + body.length + n⟩⟩,
        lexer.skip (2 + body.length + n)) := by
  have hle := TextBlock.length_read_le after
  have hfront := front_block h after
  rw [hread] at hle hfront
  rw [hrest, List.length_cons, List.length_cons, List.length_append] at hlength
  apply nextToken_of_found hrest _ (by rw [Reading.length_found] at hle; omega)
  rw [hfront, Reading.cons_found, List.append_nil, Nat.add_assoc]
  rfl

theorem nextToken_block_fault {fault : Fault} {n : Nat}
    (hread : TextBlock.read after = .fault fault n) :
    lexer.nextToken =
      (.error ⟨fault, ⟨lexer.cursor.place.row, lexer.cursor.place.col, 2 + body.length + n⟩⟩,
        lexer.skip (2 + body.length + n)) := by
  have hle := TextBlock.length_read_le after
  have hfront := front_block h after
  rw [hread] at hle hfront
  rw [hrest, List.length_cons, List.length_cons, List.length_append] at hlength
  apply nextToken_of_fault hrest _ (by rw [Reading.length_fault] at hle; omega)
  rw [hfront, Reading.cons_fault, Nat.add_assoc]
  rfl

end

/-- A text block of any number of lines is the string of these lines, joined by single line feeds. It takes up
what was written and, where a line follows that starts with no backslash, the line feed and the white space in
front of that line. A line that starts with a single backslash makes a fault of it, which is counted through
that backslash. -/
theorem nextToken_textBlock {lexer : Lexer} {lines : List (List Char)} {body after : List Char}
    (h : TextBlock.Encodes lines body)
    (hrest : lexer.cursor.rest = '\\' :: '\\' :: (body ++ after))
    (hlength : lexer.cursor.rest.length ≤ ceiling) :
    let place := lexer.cursor.place
    let lexeme := Lexeme.ofValue .string (['\n'].intercalate lines)
    (after = [] →
      let n := 2 + body.length
      lexer.nextToken = (.ok ⟨lexeme, ⟨place.row, place.col, n⟩⟩, lexer.skip n) ∧
      (lexer.skip n).cursor.rest = []) ∧
    (∀ indent rest, after = '\n' :: (indent ++ rest) → (∀ c ∈ indent, isBlank c = true) →
      (∀ c ∈ rest.head?, isBlank c = false ∧ c ≠ '\\') →
      let n := 2 + body.length + (1 + indent.length)
      lexer.nextToken = (.ok ⟨lexeme, ⟨place.row, place.col, n⟩⟩, lexer.skip n) ∧
      (lexer.skip n).cursor.rest = rest) ∧
    (∀ indent rest, after = '\n' :: (indent ++ '\\' :: rest) → (∀ c ∈ indent, isBlank c = true) →
      rest.head? ≠ some '\\' →
      let n := 2 + body.length + (1 + indent.length + 1)
      lexer.nextToken =
        (.error ⟨.malformedTextBlock, ⟨place.row, place.col, n⟩⟩, lexer.skip n) ∧
      (lexer.skip n).cursor.rest = rest) := by
  intro place lexeme
  refine ⟨?_, ?_, ?_⟩
  · intro hafter
    have hread : TextBlock.read after = .found [] 0 := by
      rw [hafter, TextBlock.read]
    exact ⟨nextToken_block hrest h hlength hread, rest_skip_block hrest (show after = [] ++ [] from hafter)⟩
  · intro indent rest hafter hindent hstop n
    have hread : TextBlock.read after = .found [] (1 + indent.length) := by
      rw [hafter, TextBlock.read_line_stop hindent hstop]
    have hlast : after = '\n' :: indent ++ rest := hafter
    have hskip := rest_skip_block hrest hlast
    rw [List.length_cons, Nat.add_comm _ 1] at hskip
    exact ⟨nextToken_block hrest h hlength hread, hskip⟩
  · intro indent rest hafter hindent hsecond n
    have hread : TextBlock.read after = .fault .malformedTextBlock (1 + indent.length + 1) := by
      rw [hafter, TextBlock.read_line_fault hindent hsecond]
    have hlast : after = ('\n' :: indent ++ ['\\']) ++ rest := by
      rw [hafter]
      simp
    have hskip := rest_skip_block hrest hlast
    rw [List.length_append, List.length_cons, Nat.add_comm indent.length] at hskip
    exact ⟨nextToken_block_fault hrest h hlength hread, hskip⟩

/-- Two lines with a blank line between them: a carriage return is kept at the end of a line, and so is the white
space behind the two backslashes. Once the block ends in front of a letter, once in front of a backslash. -/
theorem nextToken_textBlock_two_lines :
    let body := "a\\t\\u0042\r\n \n\t\\\\ \"\\uD83D\\ude00".toList
    let closed := ofText .standard ('\\' :: '\\' :: (body ++ "\n  c".toList))
    let faulty := ofText .standard ('\\' :: '\\' :: (body ++ "\n  \\c".toList))
    TextBlock.Encodes [['a', '\t', 'B', '\r'], [' ', '"', '😀']] body ∧
    closed.nextToken =
      (.ok ⟨⟨.value .string, "a\tB\r\n \"😀"⟩, ⟨1, 1, 35⟩⟩, ⟨.standard, ⟨['c'], ⟨4, 3⟩⟩, false⟩) ∧
    faulty.nextToken =
      (.error ⟨.malformedTextBlock, ⟨1, 1, 36⟩⟩, ⟨.standard, ⟨['c'], ⟨4, 4⟩⟩, false⟩) := by
  intro body closed faulty
  have hbody : TextBlock.Encodes [['a', '\t', 'B', '\r'], [' ', '"', '😀']] body := by
    have htab : Escape.Encodes '\t' "\\t".toList := .letter rfl
    have hunit : Escape.Encodes 'B' "\\u0042".toList :=
      @Escape.Encodes.units _ ["\\u0042".toList] (.cons ⟨0, "0042".toList, by decide, by decide⟩ .nil)
    have hpair : Escape.Encodes '😀' "\\uD83D\\ude00".toList :=
      @Escape.Encodes.units _ ["\\uD83D".toList, "\\ude00".toList]
        (.cons ⟨0, "D83D".toList, by decide, by decide⟩
          (.cons ⟨0, "de00".toList, by decide, by decide⟩ .nil))
    have hfirst : TextBlock.EncodesLine ['a', '\t', 'B', '\r'] "a\\t\\u0042\r".toList :=
      .verbatim (by decide) (by decide) (.escape htab (.escape hunit
        (.verbatim (by decide) (by decide) .nil)))
    have hsecond : TextBlock.EncodesLine [' ', '"', '😀'] " \"\\uD83D\\ude00".toList :=
      .verbatim (by decide) (by decide) (.verbatim (by decide) (by decide) (.escape hpair .nil))
    have hindent : ∀ c ∈ [' ', '\n', '\t'], isBlank c = true := List.all_eq_true.1 rfl
    exact .cons hfirst hindent (.single hsecond)
  have hindent : ∀ c ∈ [' ', ' '], isBlank c = true := List.all_eq_true.1 rfl
  have hstop : ∀ c ∈ ['c'].head?, isBlank c = false ∧ c ≠ '\\' := by
    rintro _ ⟨⟩
    decide
  obtain ⟨-, hclosed, -⟩ :=
    @nextToken_textBlock closed _ body "\n  c".toList hbody rfl (by decide)
  obtain ⟨-, -, hfaulty⟩ :=
    @nextToken_textBlock faulty _ body "\n  \\c".toList hbody rfl (by decide)
  obtain ⟨hclosed, -⟩ := hclosed _ ['c'] rfl hindent hstop
  obtain ⟨hfaulty, -⟩ := hfaulty _ ['c'] rfl hindent (by decide)
  refine ⟨hbody, ?_, ?_⟩
  · rw [hclosed]
    rfl
  · rw [hfaulty]
    rfl

end Lexer

end Lexis

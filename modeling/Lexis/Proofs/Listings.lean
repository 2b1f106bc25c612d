import Mathlib
import Lexis.Listing
import Lexis.Proofs.Operators

/-!
# Listings read back

The printed kinds are a prefix-free code: a spelling stands between double quotes and holds none, and no bare name
is the beginning of another one. Behind the kind, the digits of the place end at their brackets, and a text without
a line feed ends at the end of its line. So whatever the texts look like, a listing tells the kind, the place and
the text of each token. Main statement: `Listing.render_eq_iff`.
-/

namespace Lexis

/-- A character that two fronts do not hold tells where both end. -/
theorem append_cons_inj {c : Char} {front other rest more : List Char} (hfront : c ∉ front)
    (hother : c ∉ other) : front ++ c :: rest = other ++ c :: more ↔ front = other ∧ rest = more := by
  constructor
  · intro h
    have hsplit := congrArg (List.splitOn c) h
    rw [List.splitOn_append_cons_self_of_not_mem hfront,
      List.splitOn_append_cons_self_of_not_mem hother] at hsplit
    obtain ⟨rfl, -⟩ := List.cons.inj hsplit
    exact ⟨rfl, (List.cons.inj (List.append_cancel_left h)).2⟩
  · rintro ⟨rfl, rfl⟩
    rfl

/-- Two numbers that are printed in front of one character that is no digit. -/
theorem toString_append_inj {c : Char} (hc : c.isDigit = false) {m n : Nat} {rest more : List Char} :
    (toString m).toList ++ c :: rest = (toString n).toList ++ c :: more ↔ m = n ∧ rest = more := by
  rw [append_cons_inj (not_mem_toString hc m) (not_mem_toString hc n), String.toList_inj]
  exact and_congr_left fun _ => Nat.repr_inj

/-! ### Kinds -/

namespace Kind

/-- A keyword or an operator is the only kind with its spelling. -/
theorem eq_of_spelling? {kind other : Kind} {spelling : String} (h : kind.spelling? = some spelling)
    (hother : other.spelling? = some spelling) : kind = other := by
  cases kind with
  | value => cases h
  | endOfInput => cases h
  | operator op =>
    cases h
    exact (Operator.kind_spelling?_eq_iff.1 hother).symm
  | keyword word =>
    cases h
    cases other with
    | value => cases hother
    | endOfInput => cases hother
    | operator op => exact absurd (Option.some.inj hother).symm (Operator.keyword_spelling_ne word op)
    | keyword another =>
      have hword := Keyword.ofSpelling?_spelling another
      rw [Option.some.inj hother, Keyword.ofSpelling?_spelling] at hword
      rw [Option.some.inj hword]

theorem quote_not_mem_spelling {kind : Kind} {spelling : String} (h : kind.spelling? = some spelling) :
    '\x22' ∉ spelling.toList := by
  cases kind with
  | value => cases h
  | endOfInput => cases h
  | keyword word =>
    cases h
    cases word <;> decide
  | operator op =>
    cases h
    cases op <;> decide

/-- The kinds without a spelling, which are printed bare. -/
def bare : List Kind := ValueKind.all.map value ++ [endOfInput]

theorem mem_bare {kind : Kind} (h : kind.spelling? = none) : kind ∈ bare := by
  cases kind with
  | value kind => cases kind <;> decide
  | keyword => cases h
  | operator => cases h
  | endOfInput => decide

theorem toString_of_some {kind : Kind} {spelling : String} (h : kind.spelling? = some spelling)
    (rest : List Char) :
    kind.toString.toList ++ rest = '\x22' :: (spelling.toList ++ '\x22' :: rest) := by
  rw [Kind.toString, h]
  simp only [String.toList_append, List.append_assoc]
  rfl

theorem toString_of_none {kind : Kind} (h : kind.spelling? = none) :
    kind.toString = kind.displayName := by
  rw [Kind.toString, h]

/-- No bare name starts as a spelling between quotes does. -/
theorem displayName_append_ne {kind : Kind} (h : kind ∈ bare) (rest more : List Char) :
    kind.displayName.toList ++ rest ≠ '\x22' :: more := by
  have hhead : ∀ kind ∈ bare, kind.displayName.toList.head?.any (· != '\x22') = true := by decide
  intro heq
  obtain ⟨c, hc, hne⟩ := (Option.any_eq_true _ _).1 (hhead kind h)
  have hfront := congrArg List.head? heq
  rw [List.head?_append, hc] at hfront
  cases hfront
  cases hne

/-- No bare name is the beginning of another one. -/
theorem eq_of_displayName_front {kind other : Kind} (h : kind ∈ bare) (hother : other ∈ bare)
    (hfront : kind.displayName.toList <+: other.displayName.toList) : kind = other := by
  have hall : ∀ kind ∈ bare, ∀ other ∈ bare,
      kind.displayName.toList <+: other.displayName.toList → kind = other := by
    decide
  exact hall kind h other hother hfront

/-- The printed kinds are a prefix-free code: each one tells where it ends. -/
theorem toString_append_inj {kind other : Kind} {rest more : List Char} :
    kind.toString.toList ++ rest = other.toString.toList ++ more ↔ kind = other ∧ rest = more := by
  refine ⟨fun h => ?_, by rintro ⟨rfl, rfl⟩; rfl⟩
  suffices hkind : kind = other by
    subst hkind
    exact ⟨rfl, List.append_cancel_left h⟩
  cases hspelling : kind.spelling? with
  | none =>
    rw [toString_of_none hspelling] at h
    cases hagain : other.spelling? with
    | none =>
      rw [toString_of_none hagain] at h
      have hleft := List.prefix_append kind.displayName.toList rest
      rw [h] at hleft
      rcases List.prefix_or_prefix_of_prefix hleft (List.prefix_append _ more) with hfront | hfront
      · exact eq_of_displayName_front (mem_bare hspelling) (mem_bare hagain) hfront
      · exact (eq_of_displayName_front (mem_bare hagain) (mem_bare hspelling) hfront).symm
    | some spelling =>
      rw [toString_of_some hagain] at h
      exact absurd h (displayName_append_ne (mem_bare hspelling) _ _)
  | some spelling =>
    rw [toString_of_some hspelling] at h
    cases hagain : other.spelling? with
    | none =>
      rw [toString_of_none hagain] at h
      exact absurd h.symm (displayName_append_ne (mem_bare hagain) _ _)
    | some another =>
      rw [toString_of_some hagain] at h
      obtain ⟨hsame, -⟩ := (append_cons_inj (quote_not_mem_spelling hspelling)
        (quote_not_mem_spelling hagain)).1 (List.cons.inj h).2
      rw [← String.toList_inj.1 hsame] at hagain
      exact eq_of_spelling? hspelling hagain

end Kind

namespace Listing

/-- What the line of a token tells: all of it but the number of its characters. -/
structure Entry where
  lexeme : Lexeme
  place : Place

/-- The entry of a token. -/
def entry (token : Token) : Entry := ⟨token.toLexeme, ⟨token.position.row, token.position.col⟩⟩

theorem entry_eq_iff {token other : Token} :
    entry token = entry other ↔ token.kind = other.kind ∧ token.position.row = other.position.row ∧
      token.position.col = other.position.col ∧ token.text = other.text := by
  obtain ⟨⟨kind, text⟩, row, col, len⟩ := token
  obtain ⟨⟨kind', text'⟩, row', col', len'⟩ := other
  simp only [entry, Entry.mk.injEq, Lexeme.mk.injEq, Place.mk.injEq]
  tauto

/-- The parts of a line, with a text behind it. -/
theorem toList_line_append (token : Token) (rest : List Char) :
    (line token).toList ++ rest = "  ".toList ++ (token.kind.toString.toList ++ (" [".toList ++
      ((toString token.position.row).toList ++ ':' :: ((toString token.position.col).toList ++ ']' :: (' ' ::
        (token.text.toList ++ '\n' :: rest)))))) := by
  have hline : line token = "  " ++ (token.kind.toString ++ " " ++ ("[" ++ toString token.position.row ++ ":" ++
    toString token.position.col ++ "]") ++ " " ++ token.text) ++ "\n" := by
    rfl
  rw [hline]
  simp only [String.toList_append, List.append_assoc]
  rfl

/-- The parts of a heading, with a text behind it. -/
theorem toList_heading_append (path : String) (count : Nat) (rest : List Char) :
    (heading path count).toList ++ rest = ("Tokens for '" ++ path ++ "' (").toList ++
      ((toString count).toList ++ ' ' :: ("tokens):\n".toList ++ rest)) := by
  have hheading : heading path count =
      "Tokens for '" ++ path ++ "' (" ++ toString count ++ " tokens):\n" := by
    rfl
  rw [hheading]
  simp only [String.toList_append, List.append_assoc]
  rfl

/-- A line tells its entry and where it ends. -/
theorem line_append_inj {token other : Token} (htoken : '\n' ∉ token.text.toList)
    (hother : '\n' ∉ other.text.toList) {rest more : List Char} :
    (line token).toList ++ rest = (line other).toList ++ more ↔
      entry token = entry other ∧ rest = more := by
  rw [toList_line_append, toList_line_append, List.append_cancel_left_eq, Kind.toString_append_inj,
    List.append_cancel_left_eq, Lexis.toString_append_inj rfl, Lexis.toString_append_inj rfl,
    List.cons_inj_right, append_cons_inj htoken hother, String.toList_inj, entry_eq_iff]
  simp only [and_assoc]

theorem heading_append_inj {path : String} {m n : Nat} {rest more : List Char} :
    (heading path m).toList ++ rest = (heading path n).toList ++ more ↔ m = n ∧ rest = more := by
  rw [toList_heading_append, toList_heading_append, List.append_cancel_left_eq,
    Lexis.toString_append_inj rfl, List.append_cancel_left_eq]

/-- Lines in a row tell the entry of each of them. -/
theorem toList_join_line_inj {first second : List Token}
    (hfirst : ∀ token ∈ first, '\n' ∉ token.text.toList)
    (hsecond : ∀ token ∈ second, '\n' ∉ token.text.toList) :
    (String.join (first.map line)).toList = (String.join (second.map line)).toList ↔
      first.map entry = second.map entry := by
  induction first generalizing second with
  | nil =>
    cases second with
    | nil => simp
    | cons other second =>
      rw [List.map_cons, String.join_cons, String.toList_append, toList_line_append]
      simp
  | cons token first ih =>
    cases second with
    | nil =>
      rw [List.map_cons, String.join_cons, String.toList_append, toList_line_append]
      simp
    | cons other second =>
      rw [List.forall_mem_cons] at hfirst hsecond
      rw [List.map_cons, List.map_cons, String.join_cons, String.join_cons, String.toList_append,
        String.toList_append, line_append_inj hfirst.1 hsecond.1, ih hfirst.2 hsecond.2, List.map_cons,
        List.map_cons, List.cons_eq_cons]

/-- Where no text of a token holds a line feed, two listings under one path are the same exactly if they list as
many tokens, and tokens of the same kind, row, column and text in each line. -/
theorem render_eq_iff (path : String) {first second : List Token}
    (hfirst : ∀ token ∈ first, '\n' ∉ token.text.toList)
    (hsecond : ∀ token ∈ second, '\n' ∉ token.text.toList) :
    render path first = render path second ↔
      first.length = second.length ∧
      ∀ n (h₁ : n < first.length) (h₂ : n < second.length),
        first[n].kind = second[n].kind ∧ first[n].position.row = second[n].position.row ∧
        first[n].position.col = second[n].position.col ∧ first[n].text = second[n].text := by
  have hentries : render path first = render path second ↔
      first.length = second.length ∧ first.map entry = second.map entry := by
    rw [← String.toList_inj, render, render, String.toList_append, String.toList_append,
      heading_append_inj, toList_join_line_inj hfirst hsecond]
  rw [hentries, List.ext_getElem_iff]
  simp only [List.length_map, List.getElem_map, entry_eq_iff]
  tauto

/-- A text that looks like the line of another token is told from that line, and the numbers of characters of the
tokens are not listed. -/
theorem render_eq_look_alike :
    let atom (row col len : Nat) (text : String) : Token := ⟨⟨.value .atom, text⟩, ⟨row, col, len⟩⟩
    let bracket (row col : Nat) : Token := ⟨.ofOperator .lBracket, ⟨row, col, 1⟩⟩
    render "a" [atom 1 1 2 "x", bracket 1 4] = render "a" [atom 1 1 9 "x", bracket 1 4] ∧
    render "a" [atom 1 1 2 "x", bracket 1 4] ≠ render "a" [atom 1 1 2 "x  \"[\" [1:4] ["] := by
  intro atom bracket
  constructor
  · rw [render_eq_iff "a" (by decide) (by decide)]
    decide
  · rw [Ne, render_eq_iff "a" (by decide) (by decide)]
    decide

end Listing

end Lexis

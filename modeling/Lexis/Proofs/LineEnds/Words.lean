import Lexis.Proofs.LineEnds.Text
import Lexis.Proofs.Lookahead.Front

/-!
# Numbers, words, comments and operators with carriage returns

None of these goes on over a line feed or a carriage return, and none tells one from the other. Only
verbatim strings and block comments hold line feeds.
-/

namespace Lexis

open Text

/-! ### Numbers -/

theorem Digits.run_crlf {isDigit : Char → Bool} (hreturn : isDigit '\r' = false)
    (hline : isDigit '\n' = false) (text : List Char) :
    run isDigit (crlf text) = run isDigit text :=
  takeWhile_crlf_of_stop (by rw [hreturn]; rfl) (by rw [hline]; rfl) text

theorem Digits.crlf_take_run {isDigit : Char → Bool} (hline : isDigit '\n' = false)
    (text : List Char) : crlf (text.take (run isDigit text).length) = run isDigit text :=
  crlf_take_takeWhile (by rw [hline]; rfl) text

theorem Radix.carried_read (radix : Radix) (text : List Char) :
    (radix.read text).Carried Eq text (radix.read (crlf text)) := by
  have hreturn : radix.isDigit '\r' = false := by cases radix <;> decide
  have hline : radix.isDigit '\n' = false := by cases radix <;> decide
  have hlength := congrArg List.length (Digits.crlf_take_run hline text)
  unfold read
  rw [Digits.run_crlf hreturn hline]
  dsimp only
  split
  · exact .fault hlength.symm
  · exact .found rfl hlength.symm

namespace Decimal

theorem sign_crlf (text : List Char) : sign (crlf text) = sign text := by
  cases text with
  | nil => rfl
  | cons c rest =>
    by_cases hline : c = '\n'
    · subst hline
      rfl
    · rw [crlf_cons hline]
      by_cases hplus : c = '+'
      · subst hplus
        rfl
      · by_cases hminus : c = '-'
        · subst hminus
          rfl
        · simp [sign, hplus, hminus]

theorem crlf_take_sign (text : List Char) : crlf (text.take (sign text).length) = sign text := by
  unfold sign
  split <;> rfl

theorem drop_sign_crlf (text : List Char) :
    (crlf text).drop (sign text).length = crlf (text.drop (sign text).length) := by
  rw [← drop_crlf, crlf_take_sign]

theorem readExponent_crlf (text : List Char) : readExponent (crlf text) = readExponent text := by
  unfold readExponent
  dsimp only
  rw [sign_crlf, drop_sign_crlf, takeWhile_crlf_of_stop (by decide) (by decide)]

theorem length_crlf_take_readExponent (text : List Char) :
    (readExponent text).length = (crlf (text.take (readExponent text).length)).length := by
  unfold readExponent
  dsimp only
  split
  · rw [Reading.length_fault, crlf_take_sign]
  · rw [Reading.length_found, crlf_take_add, crlf_take_sign, crlf_take_takeWhile (by decide),
      List.length_append]

theorem ne_line_of_mark {c : Char} (h : c = 'e' ∨ c = 'E') : c ≠ '\n' := by
  rcases h with rfl | rfl <;> decide

theorem carried_readParts (fraction exponent : Bool) (text : List Char) :
    (readParts fraction exponent text).Carried Eq text (readParts fraction exponent (crlf text)) := by
  have hdigits : ∀ rest : List Char,
      (crlf rest).takeWhile Char.isDigit = rest.takeWhile Char.isDigit :=
    fun rest => takeWhile_crlf_of_stop (by decide) (by decide) rest
  fun_induction readParts fraction exponent text with
  | case1 fraction exponent =>
    rw [crlf_nil, readParts]
    exact .found rfl rfl
  | case2 fraction exponent rest digits hempty =>
    rw [crlf_cons (by decide), readParts_dot (hdigits rest), if_pos hempty]
    exact .found rfl rfl
  | case3 exponent rest digits hempty =>
    rw [crlf_cons (by decide), readParts_dot (hdigits rest), if_neg hempty, if_pos rfl]
    exact .fault rfl
  | case4 fraction exponent rest digits hempty hfraction ih =>
    rw [crlf_cons (by decide), readParts_dot (hdigits rest), if_neg hempty, if_neg hfraction,
      drop_crlf_takeWhile (by decide)]
    refine .cons (R := Eq) ?_ ?_ ?_
    · rw [drop_one_add]
      exact ih
    · rw [crlf_take_cons (by decide), crlf_take_takeWhile (by decide), List.length_cons, Nat.add_comm]
    · rintro s _ rfl
      rfl
  | case5 fraction c rest _ hmark =>
    rw [crlf_cons (ne_line_of_mark hmark), readParts_mark hmark, if_pos rfl]
    exact .fault rfl
  | case6 fraction exponent c rest _ hmark hexponent f n hpower =>
    have hlength := length_crlf_take_readExponent rest
    rw [hpower] at hlength
    rw [crlf_cons (ne_line_of_mark hmark), readParts_mark hmark, if_neg hexponent, readExponent_crlf,
      hpower]
    refine .fault ?_
    rw [crlf_take_cons (ne_line_of_mark hmark), List.length_cons, ← hlength, Nat.add_comm]
  | case7 fraction exponent c rest _ hmark hexponent power n hpower ih =>
    have hlength := length_crlf_take_readExponent rest
    rw [hpower] at hlength
    have hdrop := drop_crlf rest n
    rw [← hlength] at hdrop
    rw [crlf_cons (ne_line_of_mark hmark), readParts_mark hmark, if_neg hexponent, readExponent_crlf,
      hpower]
    dsimp only at hdrop ⊢
    rw [hdrop]
    refine .cons (R := Eq) ?_ ?_ ?_
    · rw [drop_one_add]
      exact ih
    · rw [crlf_take_cons (ne_line_of_mark hmark), List.length_cons, ← hlength, Nat.add_comm]
    · rintro s _ rfl
      rfl
  | case8 fraction exponent c rest hdot hmark hunderscore =>
    have hline : c ≠ '\n' := by
      rw [hunderscore.1]
      decide
    rw [crlf_cons hline, readParts_other hdot hmark, if_pos hunderscore]
    exact .fault rfl
  | case9 fraction exponent c rest hdot hmark hunderscore =>
    by_cases hline : c = '\n'
    · subst hline
      rw [crlf_line, readParts_other (by decide) (by decide), if_neg (by decide +revert)]
      exact .found rfl rfl
    · rw [crlf_cons hline, readParts_other hdot hmark, if_neg hunderscore]
      exact .found rfl rfl

theorem carried_read (text : List Char) : (read text).Carried Eq text (read (crlf text)) := by
  unfold read
  dsimp only
  rw [Digits.run_crlf (by decide) (by decide), Digits.run, drop_crlf_takeWhile (by decide)]
  refine .shift ?_ ?_
  · refine (carried_readParts false false _).map ?_
    rintro s _ rfl
    rfl
  · rw [crlf_take_takeWhile (by decide)]

end Decimal

namespace Number

theorem radix?_crlf (text : List Char) : radix? (crlf text) = radix? text := by
  cases text with
  | nil => rfl
  | cons c rest =>
    by_cases hzero : c = '0'
    · subst hzero
      rw [crlf_cons (by decide)]
      cases rest with
      | nil => rfl
      | cons d rest =>
        by_cases hline : d = '\n'
        · subst hline
          rfl
        · rw [crlf_cons hline]
          rfl
    · by_cases hline : c = '\n'
      · subst hline
        simp [radix?]
      · rw [crlf_cons hline]
        simp [radix?, hzero]

theorem carried_read (text : List Char) : (read text).Carried Eq text (read (crlf text)) := by
  unfold read
  rw [radix?_crlf]
  cases hradix : radix? text with
  | none => exact Decimal.carried_read text
  | some radix =>
    unfold radix? at hradix
    split at hradix
    · rename_i mark rest
      have hline : mark ≠ '\n' := by
        rintro rfl
        cases hradix
      rw [crlf_cons (by decide), crlf_cons hline]
      refine .shift (radix.carried_read rest) ?_
      rw [List.take_succ_cons, List.take_succ_cons, List.take_zero, crlf_cons (by decide),
        crlf_cons hline]
      rfl
    · cases hradix

end Number

/-! ### Words -/

namespace Word

theorem run_crlf (text : List Char) : run (crlf text) = run text :=
  takeWhile_crlf_of_stop (by decide) (by decide) text

theorem crlf_take_run (text : List Char) : crlf (text.take (run text).length) = run text :=
  crlf_take_takeWhile (by decide) text

theorem carried_read (text : List Char) : (read text).Carried Eq text (read (crlf text)) := by
  unfold read
  rw [run_crlf]
  refine .found rfl ?_
  rw [crlf_take_run]

theorem carried_readExtended (text : List Char) :
    (readExtended text).Carried Eq ('\x60' :: text) (readExtended (crlf text)) := by
  have hword : ((crlf text).takeWhile fun c => c != '\x60' && !isLineEnd c) =
      text.takeWhile fun c => c != '\x60' && !isLineEnd c :=
    takeWhile_crlf_of_stop (by decide) (by decide) text
  have htake : crlf (text.take (text.takeWhile fun c => c != '\x60' && !isLineEnd c).length) =
      text.takeWhile fun c => c != '\x60' && !isLineEnd c := crlf_take_takeWhile (by decide) text
  have hdrop := @drop_crlf_takeWhile (fun c => c != '\x60' && !isLineEnd c) (by decide) text
  unfold readExtended
  dsimp only
  rw [hword, hdrop]
  generalize (text.takeWhile fun c => c != '\x60' && !isLineEnd c) = word at htake
  have hlength : 1 + word.length = (crlf (('\x60' :: text).take (1 + word.length))).length := by
    rw [crlf_take_cons (by decide), htake, List.length_cons, Nat.add_comm]
  cases hstop : text.drop word.length with
  | nil => exact .fault hlength
  | cons c tail =>
    by_cases hline : c = '\n'
    · subst hline
      exact .fault hlength
    · rw [crlf_cons hline]
      dsimp only
      split
      · rename_i htick
        refine .found rfl ?_
        rw [Nat.add_assoc, crlf_take_cons (by decide), crlf_take_add, htake, hstop, htick]
        simp [crlf_cons, Nat.add_comm]
      · exact .fault hlength

/-- A verbatim string keeps its text where no line feed stands in it. -/
theorem carried_readRaw {quote : Char} (hquote : Quoted.isQuote quote = true) (text : List Char) :
    (Quoted.readRaw quote text).Carried
      (fun s t => '\n' ∉ text.take (Quoted.readRaw quote text).length → t = s) text
      (Quoted.readRaw quote (crlf text)) := by
  have hreturn : quote ≠ '\r' := ne_of_class hquote rfl
  have hline : quote ≠ '\n' := ne_of_class hquote rfl
  have hcontent : (crlf text).takeWhile (· != quote) = crlf (text.takeWhile (· != quote)) := by
    apply takeWhile_crlf
    rw [bne_iff_ne.2 hreturn.symm, bne_iff_ne.2 hline.symm]
  have hstop := stop_of_takeWhile (· != quote) text
  have htake := take_length_takeWhile (· != quote) text
  have hdrop := drop_crlf text (text.takeWhile (· != quote)).length
  rw [htake] at hdrop
  have hlength := congrArg List.length hdrop
  rw [List.length_drop] at hlength
  unfold Quoted.readRaw
  dsimp only
  rw [hcontent]
  generalize text.takeWhile (· != quote) = content at *
  cases hrest : text.drop content.length with
  | nil =>
    have hwhole : content = text := by
      rw [← htake, List.take_of_length_le (List.drop_eq_nil_iff.1 hrest)]
    rw [hwhole, if_neg (Nat.lt_irrefl _), if_neg (Nat.lt_irrefl _)]
    refine .fault ?_
    rw [List.take_length]
  | cons c rest =>
    rw [hrest] at hstop hlength
    have hc : c = quote := by simpa using hstop c rfl
    subst hc
    have hopen : content.length < text.length := by
      have hlength := congrArg List.length hrest
      rw [List.length_drop, List.length_cons] at hlength
      omega
    rw [crlf_cons hline, List.length_cons] at hlength
    rw [if_pos hopen, if_pos (by omega)]
    refine .found ?_ ?_
    · intro hfree
      rw [Reading.length_found, List.take_add, htake, List.mem_append, not_or] at hfree
      exact crlf_of_not_mem hfree.1
    · rw [crlf_take_add, htake, hrest, crlf_take_one hline,
        List.length_append]
      rfl

theorem carried_readMarked (text : List Char) :
    (readMarked text).Carried (Lexeme.Kept (('#' :: text).take (readMarked text).length))
      ('#' :: text) (readMarked (crlf text)) := by
  cases text with
  | nil => exact .fault rfl
  | cons c rest =>
    by_cases hquote : Quoted.isQuote c = true
    · have hline : c ≠ '\n' := ne_of_class hquote rfl
      simp only [readMarked, crlf_cons hline, hquote, if_true, Reading.length_shift,
        Reading.length_map]
      refine .shift ?_ ?_
      · refine (carried_readRaw hquote rest).map ?_
        intro s t hkept
        refine ⟨rfl, ?_⟩
        rw [Nat.add_comm, List.take_succ_cons, List.take_succ_cons]
        rintro (hfree | ⟨⟨d, hd, hopen⟩, -⟩)
        · rw [List.mem_cons, List.mem_cons, not_or, not_or] at hfree
          rw [hkept hfree.2.2]
        · cases hd
          cases hopen
      · rw [List.take_succ_cons, List.take_succ_cons, List.take_zero, crlf_cons (by decide),
          crlf_cons hline]
        rfl
    · by_cases hline : c = '\n'
      · subst hline
        exact .fault rfl
      · have hrun := run_crlf (c :: rest)
        have htake := crlf_take_run (c :: rest)
        rw [crlf_cons hline] at hrun ⊢
        by_cases halpha : c.isAlpha = true
        · simp only [readMarked, if_neg hquote, if_pos halpha, hrun]
          refine .found (.of_eq rfl) ?_
          rw [crlf_take_cons (by decide), htake, List.length_cons, Nat.add_comm]
        · simp only [readMarked, if_neg hquote, if_neg halpha]
          exact .fault rfl

end Word

/-! ### Comments -/

namespace Comment

theorem lineRest_crlf (text : List Char) : lineRest (crlf text) = lineRest text :=
  takeWhile_crlf_of_stop (by decide) (by decide) text

theorem crlf_take_lineRest (text : List Char) :
    crlf (text.take (lineRest text).length) = lineRest text :=
  crlf_take_takeWhile (by decide) text

theorem isDocumentation_crlf (text : List Char) :
    isDocumentation (crlf text) = isDocumentation text := by
  cases text with
  | nil => rfl
  | cons c rest =>
    by_cases hline : c = '\n'
    · subst hline
      rfl
    · rw [crlf_cons hline]
      by_cases hslash : c = '/'
      · subst hslash
        rw [isDocumentation_slash, isDocumentation_slash, Bool.eq_iff_iff, bne_iff_ne, bne_iff_ne,
          Ne, Ne, head?_crlf (by decide) (by decide)]
      · simp [isDocumentation, hslash]

theorem carried_readLine (text : List Char) :
    (readLine text).Carried Eq ('/' :: '/' :: text) (readLine (crlf text)) := by
  have hdoc := isDocumentation_crlf text
  cases h : isDocumentation text with
  | true =>
    rw [h] at hdoc
    obtain ⟨rest, rfl⟩ : ∃ rest, text = '/' :: rest := by
      unfold isDocumentation at h
      split at h
      · exact ⟨_, rfl⟩
      · cases h
    rw [readLine_of_isDocumentation h, readLine_of_isDocumentation hdoc, crlf_cons (by decide),
      List.drop_succ_cons, List.drop_succ_cons, List.drop_zero, List.drop_zero, lineRest_crlf]
    refine .found rfl ?_
    rw [show 3 + (lineRest rest).length = 1 + (1 + (1 + (lineRest rest).length)) by omega,
      crlf_take_cons (by decide), crlf_take_cons (by decide), crlf_take_cons (by decide),
      crlf_take_lineRest]
    simp only [List.length_cons]
    omega
  | false =>
    rw [h] at hdoc
    rw [readLine_of_not_isDocumentation h, readLine_of_not_isDocumentation hdoc, lineRest_crlf]
    refine .found rfl ?_
    rw [show 2 + (lineRest text).length = 1 + (1 + (lineRest text).length) by omega,
      crlf_take_cons (by decide), crlf_take_cons (by decide), crlf_take_lineRest]
    simp only [List.length_cons]
    omega

/-- The first closing mark stays the first one. -/
theorem closing?_crlf (text : List Char) :
    closing? (crlf text) = (closing? text).map fun n => (crlf (text.take n)).length := by
  induction text with
  | nil => rfl
  | cons c rest ih =>
    by_cases hline : c = '\n'
    · subst hline
      simp only [crlf_line, closing?, ih, Option.map_map]
      simp [Function.comp_def, Nat.add_comm]
    · have hslash := head?_crlf (show '/' ≠ '\n' by decide) (by decide) rest
      rw [crlf_cons hline, closing?, closing?, ih]
      simp only [hslash]
      split
      · rename_i hmark
        obtain ⟨rfl, hslash⟩ := hmark
        obtain ⟨more, rfl⟩ := List.head?_eq_some_iff.1 hslash
        rfl
      · rw [Option.map_map, Option.map_map]
        congr 1
        funext n
        simp only [Function.comp_apply, List.take_succ_cons, crlf_cons hline, List.length_cons]

theorem carried_readBlock (text : List Char) :
    (readBlock text).Carried Eq ('/' :: '*' :: text) (readBlock (crlf text)) := by
  have hlength : ∀ n, 2 + (crlf (text.take n)).length =
      (crlf (('/' :: '*' :: text).take (2 + n))).length := by
    intro n
    rw [show 2 + n = 1 + (1 + n) by omega, crlf_take_cons (by decide), crlf_take_cons (by decide),
      List.length_cons, List.length_cons]
    omega
  unfold readBlock
  rw [closing?_crlf]
  cases closing? text with
  | none =>
    refine .fault ?_
    rw [← hlength, List.take_length]
  | some n => exact .found rfl (hlength n)

end Comment

/-! ### Operators -/

namespace Operator

theorem grow_crlf (op : Operator) (text : List Char) : op.grow (crlf text) = op.grow text := by
  induction text generalizing op with
  | nil => rfl
  | cons c rest ih =>
    by_cases hline : c = '\n'
    · subst hline
      rw [crlf_line, grow_cons_of_none (ofSpelling?_push_of_blank op (by decide)),
        grow_cons_of_none (ofSpelling?_push_of_blank op (by decide))]
    · rw [crlf_cons hline]
      cases hlonger : ofSpelling? (op.spelling.push c) with
      | none => rw [grow_cons_of_none hlonger, grow_cons_of_none hlonger]
      | some longer => rw [grow_cons_of_some hlonger, grow_cons_of_some hlonger, ih]

theorem line_not_mem_spelling (op : Operator) : '\n' ∉ op.spelling.toList := by
  cases op <;> decide

theorem munch?_crlf (c : Char) (rest : List Char) : munch? (c :: crlf rest) = munch? (c :: rest) := by
  rw [munch?, munch?]
  simp only [grow_crlf]

theorem crlf_take_munch? {text : List Char} {op : Operator} (h : munch? text = some op) :
    crlf (text.take op.spelling.length) = op.spelling.toList := by
  rw [← String.length_toList, ← List.prefix_iff_eq_take.1 (spelling_munch? h)]
  exact crlf_of_not_mem op.line_not_mem_spelling

end Operator

end Lexis

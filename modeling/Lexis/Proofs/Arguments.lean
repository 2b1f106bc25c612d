import Mathlib.Data.List.Basic
import Mathlib.Data.List.Induction
import Lexis.Proofs.Messages

/-!
# Arguments in any order

The arguments are accepted if exactly one of them is a path and each other one sets the tab size, wherever the path
stands. The last setting counts. Otherwise the leftmost argument that has no place is reported, and a missing path
only where every argument has one. Main statement: `Options.parse_iff`.
-/

namespace Lexis

/-- The last element of a split list belongs to the split, or it is the one at which the list is split. -/
theorem snoc_eq_split {α : Type} {front before after : List α} {last x : α}
    (h : front ++ [last] = before ++ x :: after) :
    (after = [] ∧ before = front ∧ x = last) ∨
      ∃ more, after = more ++ [last] ∧ front = before ++ x :: more := by
  rcases List.eq_nil_or_concat' after with rfl | ⟨more, y, rfl⟩
  · obtain ⟨rfl, rfl⟩ := List.append_singleton_inj.1 h
    exact Or.inl ⟨rfl, rfl, rfl⟩
  · rw [← List.cons_append, ← List.append_assoc] at h
    obtain ⟨rfl, rfl⟩ := List.append_singleton_inj.1 h
    exact Or.inr ⟨more, rfl, rfl⟩

namespace Argument

/-- The argument that sets the tab size by a given text. -/
def flag (value : String) : String := tabSizeFlag ++ value

/-- An argument that does not start with a hyphen is a path. -/
def IsPath (argument : String) : Prop := argument.toList.head? ≠ some '-'

/-- The argument sets the tab size, by a text that is accepted. -/
def Sets (argument : String) : Prop := ∃ value config, argument = flag value ∧ Config.parse value = .ok config

/-- What is wrong with an argument behind given ones: it sets the tab size by a text that is rejected, it starts with
a hyphen and does not set the tab size, or it is a path behind another path. -/
inductive Offends (before : List String) (argument : String) : OptionError → Prop
  | tabSize {value : String} {error : ConfigError} : argument = flag value →
      Config.parse value = .error error → Offends before argument (.tabSize error)
  | unknownOption : ¬ IsPath argument → (∀ value, argument ≠ flag value) →
      Offends before argument (.unknownOption argument)
  | unexpected : IsPath argument → (∃ path ∈ before, IsPath path) →
      Offends before argument (.unexpectedArgument argument)

/-- Exactly one argument is a path, and every other one sets the tab size. -/
def Names (arguments : List String) (path : String) : Prop :=
  ∃ before after, arguments = before ++ path :: after ∧ IsPath path ∧
    ∀ argument ∈ before ++ after, Sets argument

/-- Every argument has its place. -/
def Fine (arguments : List String) : Prop :=
  ∀ before argument after error, arguments = before ++ argument :: after → ¬ Offends before argument error

/-! ### The three kinds of arguments -/

theorem flag_inj {value other : String} (h : flag value = flag other) : value = other := by
  rwa [flag, flag, String.append_right_inj] at h

theorem not_isPath_flag (value : String) : ¬ IsPath (flag value) := by
  rw [IsPath, flag, String.toList_append]
  exact not_not.2 rfl

theorem ofText_flag (value : String) : ofText (flag value) = .tabSize value := by
  have hfront : tabSizeFlag.toList.isPrefixOf (flag value).toList = true := by
    rw [flag, String.toList_append, List.isPrefixOf_iff_prefix]
    exact List.prefix_append _ _
  have hrest : (flag value).toList.drop tabSizeFlag.length = value.toList := by
    rw [flag, String.toList_append]
    exact List.drop_left
  rw [ofText, if_pos hfront, hrest, String.ofList_toList]

theorem isPrefixOf_eq_false {argument : String} (h : ∀ value, argument ≠ flag value) :
    ¬ tabSizeFlag.toList.isPrefixOf argument.toList = true := by
  intro hfront
  obtain ⟨rest, hrest⟩ := List.isPrefixOf_iff_prefix.1 hfront
  apply h (String.ofList rest)
  rw [← String.toList_inj, flag, String.toList_append, String.toList_ofList, hrest]

theorem IsPath.ne_flag {argument : String} (h : IsPath argument) (value : String) :
    argument ≠ flag value := by
  rintro rfl
  exact not_isPath_flag value h

theorem ofText_path {argument : String} (h : IsPath argument) : ofText argument = .path := by
  rw [ofText, if_neg (isPrefixOf_eq_false h.ne_flag), if_neg h]

theorem ofText_unknownOption {argument : String} (h : ¬ IsPath argument)
    (hflag : ∀ value, argument ≠ flag value) : ofText argument = .unknownOption := by
  rw [ofText, if_neg (isPrefixOf_eq_false hflag), if_pos (not_not.1 h)]

theorem Sets.not_isPath {argument : String} (h : Sets argument) : ¬ IsPath argument := by
  obtain ⟨value, config, rfl, -⟩ := h
  exact not_isPath_flag value

/-! ### Arguments that have their place -/

theorem fine_nil : Fine [] := by
  intro before argument after error h
  simp at h

/-- Arguments have their place if those in front of the last one have theirs and the last one does not offend. -/
theorem Fine.snoc {front : List String} {last : String} (h : Fine front)
    (hlast : ∀ error, ¬ Offends front last error) : Fine (front ++ [last]) := by
  intro before argument after error hsplit
  rcases snoc_eq_split hsplit with ⟨rfl, rfl, rfl⟩ | ⟨more, rfl, hfront⟩
  · exact hlast error
  · exact h before argument more error hfront

theorem Sets.not_offends {argument : String} (h : Sets argument) (before : List String) (error : OptionError) :
    ¬ Offends before argument error := by
  obtain ⟨value, config, rfl, hparse⟩ := h
  intro hoffends
  cases hoffends with
  | tabSize hflag hrejected =>
    rw [flag_inj hflag, hrejected] at hparse
    cases hparse
  | unknownOption _ hflag => exact hflag value rfl
  | unexpected hpath _ => exact not_isPath_flag value hpath

theorem IsPath.not_offends {argument : String} (h : IsPath argument) {before : List String}
    (hbefore : ∀ path ∈ before, ¬ IsPath path) (error : OptionError) : ¬ Offends before argument error := by
  intro hoffends
  cases hoffends with
  | tabSize hflag _ => exact h.ne_flag _ hflag
  | unknownOption hpath _ => exact hpath h
  | unexpected _ hexists =>
    obtain ⟨path, hmem, hpath⟩ := hexists
    exact hbefore path hmem hpath

end Argument

namespace Options

open Argument

/-- The settings that the arguments make of given ones: those of the last setting, where there is one. -/
structure IsEffective (base : Config) (arguments : List String) (config : Config) : Prop where
  last : ∀ before value after, arguments = before ++ flag value :: after →
    (∀ argument ∈ after, ∀ other, argument ≠ flag other) → Config.parse value = .ok config
  unset : (∀ argument ∈ arguments, ∀ value, argument ≠ flag value) → config = base

/-- The arguments name the path and make the settings. -/
structure IsAccepted (base : Config) (arguments : List String) (options : Options) : Prop where
  path : Names arguments options.path
  config : IsEffective base arguments options.config

/-- The leftmost argument that has no place has this error. -/
def IsLeftmost (arguments : List String) (error : OptionError) : Prop :=
  ∃ before argument after, arguments = before ++ argument :: after ∧ Fine before ∧
    Offends before argument error

/-- What has been found in arguments that have their place: the path, if there is one yet, and the settings. -/
inductive Scanned (base : Config) : List String → Option String → Config → Prop
  | start : Scanned base [] none base
  | tabSize {arguments : List String} {path : Option String} {config next : Config} {value : String} :
      Scanned base arguments path config → Config.parse value = .ok next →
      Scanned base (arguments ++ [flag value]) path next
  | path {arguments : List String} {config : Config} {argument : String} :
      Scanned base arguments none config → IsPath argument →
      Scanned base (arguments ++ [argument]) (some argument) config

namespace Scanned

variable {base config : Config} {arguments : List String} {path : Option String}
  (h : Scanned base arguments path config)

include h

/-- Behind arguments that have their place, the other ones are read with what has been found. -/
theorem parse_append (rest : List String) :
    parse base (arguments ++ rest) = parseFrom path config rest := by
  induction h generalizing rest with
  | start => rfl
  | tabSize _ hparse ih =>
    rw [List.append_assoc, ih, List.singleton_append]
    simp only [parseFrom, ofText_flag, hparse]
  | path _ hpath ih =>
    rw [List.append_assoc, ih, List.singleton_append]
    simp only [parseFrom, ofText_path hpath]

theorem sets_or_path : ∀ argument ∈ arguments, Sets argument ∨ path = some argument := by
  induction h with
  | start => simp
  | tabSize _ hparse ih =>
    intro argument hmem
    rcases List.mem_append.1 hmem with hmem | hmem
    · exact ih argument hmem
    · rw [List.mem_singleton.1 hmem]
      exact Or.inl ⟨_, _, rfl, hparse⟩
  | path _ _ ih =>
    intro argument hmem
    rcases List.mem_append.1 hmem with hmem | hmem
    · exact Or.inl ((ih argument hmem).resolve_right (by simp))
    · rw [List.mem_singleton.1 hmem]
      exact Or.inr rfl

theorem mem_path {found : String} (hfound : path = some found) : found ∈ arguments ∧ IsPath found := by
  induction h with
  | start => cases hfound
  | tabSize _ _ ih =>
    obtain ⟨hmem, hpath⟩ := ih hfound
    exact ⟨List.mem_append_left _ hmem, hpath⟩
  | path _ hpath _ =>
    cases hfound
    exact ⟨List.mem_append_right _ (List.mem_singleton.2 rfl), hpath⟩

theorem path_eq_some {argument : String} (hmem : argument ∈ arguments) (hpath : IsPath argument) :
    path = some argument :=
  (h.sets_or_path argument hmem).resolve_left fun hsets => hsets.not_isPath hpath

theorem fine : Fine arguments := by
  induction h with
  | start => exact fine_nil
  | tabSize _ hparse ih => exact ih.snoc (Sets.not_offends ⟨_, _, rfl, hparse⟩ _)
  | path hscanned hpath ih =>
    refine ih.snoc (hpath.not_offends ?_)
    intro other hmem hother
    cases hscanned.path_eq_some hmem hother

end Scanned

/-- The arguments either have their place, or there is a leftmost one that has none. -/
theorem exists_scanned (base : Config) (arguments : List String) :
    (∃ path config, Scanned base arguments path config) ∨
      ∃ before argument after error path config, arguments = before ++ argument :: after ∧
        Scanned base before path config ∧ Offends before argument error := by
  induction arguments using List.reverseRecOn with
  | nil => exact Or.inl ⟨none, base, .start⟩
  | append_singleton front last ih =>
    rcases ih with ⟨path, config, h⟩ | ⟨before, argument, after, error, path, config, rfl, h, hoffends⟩
    · by_cases hpath : IsPath last
      · cases path with
        | none => exact Or.inl ⟨_, _, .path h hpath⟩
        | some first =>
          exact Or.inr ⟨front, last, [], _, _, _, rfl, h, .unexpected hpath ⟨first, h.mem_path rfl⟩⟩
      by_cases hflag : ∃ value, last = flag value
      · obtain ⟨value, rfl⟩ := hflag
        cases hparse : Config.parse value with
        | ok next => exact Or.inl ⟨_, _, .tabSize h hparse⟩
        | error error => exact Or.inr ⟨front, _, [], _, _, _, rfl, h, .tabSize rfl hparse⟩
      · exact Or.inr ⟨front, last, [], _, _, _, rfl, h, .unknownOption hpath (not_exists.1 hflag)⟩
    · exact Or.inr ⟨before, argument, after ++ [last], error, path, config, by simp, h, hoffends⟩

theorem scanned_of_fine (base : Config) {arguments : List String} (h : Fine arguments) :
    ∃ path config, Scanned base arguments path config := by
  rcases exists_scanned base arguments with hscanned |
    ⟨before, argument, after, error, path, config, hsplit, -, hoffends⟩
  · exact hscanned
  · exact absurd hoffends (h before argument after error hsplit)

/-- The first argument that has no place is reported. -/
theorem parse_of_offends {base config : Config} {before : List String} {path : Option String}
    (h : Scanned base before path config) {argument : String} {error : OptionError}
    (hoffends : Offends before argument error) (after : List String) :
    parse base (before ++ argument :: after) = .error error := by
  rw [h.parse_append]
  cases hoffends with
  | tabSize hflag hparse => simp only [hflag, parseFrom, ofText_flag, hparse]
  | unknownOption hpath hflag => simp only [parseFrom, ofText_unknownOption hpath hflag]
  | unexpected hpath hexists =>
    obtain ⟨first, hmem, hfirst⟩ := hexists
    rw [h.path_eq_some hmem hfirst]
    simp only [parseFrom, ofText_path hpath]

/-- Where all arguments have their place, only the path can be missing. -/
theorem parse_of_scanned {base config : Config} {arguments : List String} {path : Option String}
    (h : Scanned base arguments path config) :
    parse base arguments =
      match path with
      | some path => .ok ⟨path, config⟩
      | none => .error .missingPath := by
  have hparse := h.parse_append []
  rw [List.append_nil] at hparse
  rw [hparse]
  cases path with
  | none => rfl
  | some path => rfl

/-! ### The path and the settings -/

theorem Scanned.names {base config : Config} {arguments : List String} {path : Option String}
    (h : Scanned base arguments path config) {found : String} (hfound : path = some found) :
    Names arguments found := by
  induction h with
  | start => cases hfound
  | @tabSize arguments path config next value _ hparse ih =>
    obtain ⟨before, after, rfl, hpath, hsets⟩ := ih hfound
    refine ⟨before, after ++ [flag value], by simp, hpath, ?_⟩
    intro argument hmem
    rw [← List.append_assoc] at hmem
    rcases List.mem_append.1 hmem with hmem | hmem
    · exact hsets argument hmem
    · rw [List.mem_singleton.1 hmem]
      exact ⟨_, _, rfl, hparse⟩
  | path hscanned hpath _ =>
    cases hfound
    refine ⟨_, [], rfl, hpath, ?_⟩
    intro argument hmem
    rw [List.append_nil] at hmem
    exact (hscanned.sets_or_path argument hmem).resolve_right (by simp)

theorem Scanned.isEffective {base config : Config} {arguments : List String} {path : Option String}
    (h : Scanned base arguments path config) : IsEffective base arguments config := by
  induction h with
  | start => exact ⟨by simp, fun _ => rfl⟩
  | @tabSize arguments path config next value _ hparse _ =>
    constructor
    · intro before other after hsplit hafter
      rcases snoc_eq_split hsplit with ⟨-, -, hflag⟩ | ⟨more, rfl, -⟩
      · rwa [flag_inj hflag]
      · exact absurd rfl (hafter (flag value) (by simp) value)
    · intro hunset
      exact absurd rfl (hunset (flag value) (by simp) value)
  | @path arguments config argument _ hpath ih =>
    constructor
    · intro before other after hsplit hafter
      rcases snoc_eq_split hsplit with ⟨-, -, hflag⟩ | ⟨more, rfl, hfront⟩
      · exact absurd hflag.symm (hpath.ne_flag other)
      · exact ih.last before other more hfront fun argument hmem =>
          hafter argument (List.mem_append_left _ hmem)
    · intro hunset
      exact ih.unset fun argument hmem => hunset argument (List.mem_append_left _ hmem)

/-- There is a last setting unless there is none at all. -/
theorem exists_last_flag (arguments : List String) :
    (∀ argument ∈ arguments, ∀ value, argument ≠ flag value) ∨
      ∃ before value after, arguments = before ++ flag value :: after ∧
        ∀ argument ∈ after, ∀ other, argument ≠ flag other := by
  induction arguments using List.reverseRecOn with
  | nil => exact Or.inl (by simp)
  | append_singleton front last ih =>
    by_cases hflag : ∃ value, last = flag value
    · obtain ⟨value, rfl⟩ := hflag
      exact Or.inr ⟨front, value, [], rfl, by simp⟩
    have hlast : ∀ argument ∈ [last], ∀ value, argument ≠ flag value := by
      intro argument hmem value hvalue
      exact hflag ⟨value, by rw [← List.mem_singleton.1 hmem, hvalue]⟩
    rcases ih with hunset | ⟨before, value, after, rfl, hafter⟩
    · exact Or.inl fun argument hmem => (List.mem_append.1 hmem).elim (hunset argument) (hlast argument)
    · exact Or.inr ⟨before, value, after ++ [last], by simp, fun argument hmem =>
        (List.mem_append.1 hmem).elim (hafter argument) (hlast argument)⟩

theorem IsEffective.unique {base config other : Config} {arguments : List String}
    (h : IsEffective base arguments config) (hother : IsEffective base arguments other) : config = other := by
  rcases exists_last_flag arguments with hunset | ⟨before, value, after, hsplit, hafter⟩
  · rw [h.unset hunset, hother.unset hunset]
  · have hparse := h.last before value after hsplit hafter
    rw [hother.last before value after hsplit hafter] at hparse
    exact (Except.ok.inj hparse).symm

/-- Settings behind arguments that have their place have their place too. -/
theorem Scanned.append_sets {base config : Config} {arguments : List String} {path : Option String}
    (h : Scanned base arguments path config) {more : List String} (hmore : ∀ argument ∈ more, Sets argument) :
    ∃ next, Scanned base (arguments ++ more) path next := by
  induction more generalizing arguments config with
  | nil =>
    rw [List.append_nil]
    exact ⟨config, h⟩
  | cons argument more ih =>
    rw [List.forall_mem_cons] at hmore
    obtain ⟨value, next, rfl, hparse⟩ := hmore.1
    rw [List.append_cons]
    exact ih (.tabSize h hparse) hmore.2

/-- Arguments that name one path have their place. -/
theorem scanned_of_names (base : Config) {arguments : List String} {path : String} (h : Names arguments path) :
    ∃ config, Scanned base arguments (some path) config := by
  obtain ⟨before, after, rfl, hpath, hsets⟩ := h
  rw [List.forall_mem_append] at hsets
  obtain ⟨middle, hbefore⟩ := Scanned.start.append_sets hsets.1
  obtain ⟨config, hscanned⟩ := (hbefore.path hpath).append_sets hsets.2
  rw [List.nil_append, ← List.append_cons] at hscanned
  exact ⟨config, hscanned⟩

theorem IsAccepted.scanned {base : Config} {arguments : List String} {options : Options}
    (h : IsAccepted base arguments options) :
    Scanned base arguments (some options.path) options.config := by
  obtain ⟨config, hscanned⟩ := scanned_of_names base h.path
  rwa [h.config.unique hscanned.isEffective]

theorem parse_eq_ok_iff {base : Config} {arguments : List String} {options : Options} :
    parse base arguments = .ok options ↔ IsAccepted base arguments options := by
  constructor
  · intro h
    rcases exists_scanned base arguments with ⟨path, config, hscanned⟩ |
      ⟨before, argument, after, error, path, config, rfl, hscanned, hoffends⟩
    · rw [parse_of_scanned hscanned] at h
      cases path with
      | none => cases h
      | some path =>
        cases h
        exact ⟨hscanned.names rfl, hscanned.isEffective⟩
    · rw [parse_of_offends hscanned hoffends] at h
      cases h
  · intro h
    rw [parse_of_scanned h.scanned]

theorem exists_parse_eq_ok_iff (base : Config) (arguments : List String) :
    (∃ options, parse base arguments = .ok options) ↔ ∃ path, Names arguments path := by
  constructor
  · rintro ⟨options, h⟩
    exact ⟨options.path, (parse_eq_ok_iff.1 h).path⟩
  · rintro ⟨path, h⟩
    obtain ⟨config, hscanned⟩ := scanned_of_names base h
    exact ⟨⟨path, config⟩, parse_of_scanned hscanned⟩

theorem parse_eq_error_iff {base : Config} {arguments : List String} {error : OptionError} :
    parse base arguments = .error error ↔ IsLeftmost arguments error ∨
      (error = .missingPath ∧ Fine arguments ∧ ∀ argument ∈ arguments, ¬ IsPath argument) := by
  constructor
  · intro h
    rcases exists_scanned base arguments with ⟨path, config, hscanned⟩ |
      ⟨before, argument, after, leftmost, path, config, rfl, hscanned, hoffends⟩
    · rw [parse_of_scanned hscanned] at h
      cases path with
      | none =>
        cases h
        refine Or.inr ⟨rfl, hscanned.fine, fun argument hmem hpath => ?_⟩
        cases hscanned.path_eq_some hmem hpath
      | some path => cases h
    · rw [parse_of_offends hscanned hoffends] at h
      cases h
      exact Or.inl ⟨before, argument, after, rfl, hscanned.fine, hoffends⟩
  · rintro (⟨before, argument, after, rfl, hfine, hoffends⟩ | ⟨rfl, hfine, hpaths⟩)
    · obtain ⟨path, config, hscanned⟩ := scanned_of_fine base hfine
      exact parse_of_offends hscanned hoffends after
    · obtain ⟨path, config, hscanned⟩ := scanned_of_fine base hfine
      rw [parse_of_scanned hscanned]
      cases path with
      | none => rfl
      | some path =>
        obtain ⟨hmem, hpath⟩ := hscanned.mem_path rfl
        exact absurd hpath (hpaths path hmem)

/-- The arguments are accepted exactly if one of them is a path and each other one sets the tab size: they name this
path, and the last setting counts, or the given settings without one. Otherwise the error is that of the leftmost
argument that has no place, or that the path is missing where each argument has one. The message tells which. -/
theorem parse_iff (base : Config) (arguments : List String) :
    ((∃ options, parse base arguments = .ok options) ↔ ∃ path, Names arguments path) ∧
    (∀ options, parse base arguments = .ok options ↔ IsAccepted base arguments options) ∧
    (∀ error, parse base arguments = .error error ↔ IsLeftmost arguments error ∨
      (error = .missingPath ∧ Fine arguments ∧ ∀ argument ∈ arguments, ¬ IsPath argument)) ∧
    ∀ error other : OptionError, error.message = other.message → error = other :=
  ⟨exists_parse_eq_ok_iff base arguments, fun _ => parse_eq_ok_iff, fun _ => parse_eq_error_iff,
    fun _ _ => OptionError.message_inj⟩

/-- A setting behind the path overrides one in front of it, and of three arguments without a place the leftmost one
is reported. -/
theorem parse_iff_overridden :
    let settings := ["--tab-size=2", "a", "--tab-size=+08"]
    let mistakes := ["a", "--tab-size=2", "--tab-size=x", "b", "-q"]
    IsAccepted .standard settings ⟨"a", ⟨8, by decide⟩⟩ ∧
    IsLeftmost mistakes (.tabSize (.invalidTabSize "x")) := by
  intro settings mistakes
  have haccepted : parse .standard settings = .ok ⟨"a", ⟨8, by decide⟩⟩ := rfl
  have hrejected : parse .standard mistakes = .error (.tabSize (.invalidTabSize "x")) := rfl
  obtain ⟨-, hok, -, -⟩ := parse_iff .standard settings
  obtain ⟨-, -, herror, -⟩ := parse_iff .standard mistakes
  refine ⟨(hok _).1 haccepted, ((herror _).1 hrejected).resolve_right ?_⟩
  rintro ⟨hmissing, -⟩
  cases hmissing

end Options

end Lexis

import FreeForm.Proofs.CallNesting
import FreeForm.Proofs.LowerCase
import FreeForm.Proofs.RangeParse
import FreeForm.Proofs.SourceParts

/-!
# Letter case

Texts that are the same in lower case are read in lockstep (`lockstep_lower`), and neither the pass
over parentheses nor the scan for logical lines tells them apart (`nestingDepth_lower`,
`logicalLines_lower`).

`Text.Recased` says that some letters of a text have been changed in case.  The result of a parse
and the hits in a source stay the same (`parse_recased`).
-/

namespace FreeForm

open Text

/-! ## Parsing -/

namespace Cursor

/-- The same place in the text in lower case. -/
def lower (c : Cursor) : Cursor := ⟨c.rest.lower, c.pos, c.stop⟩

theorem token?_lower {p : Pattern} (hp : p.ignoresCase) (c : Cursor) :
    c.lower.token? p = (c.token? p).map lower := by
  rw [token?, token?, lower, Pattern.split?_lower hp, Option.map_map, Option.map_map]
  congr 1
  funext x
  simp only [Function.comp, lower, Pattern.lowerParts, size_lower]

theorem skipGap_lower (c : Cursor) : c.lower.skipGap = c.skipGap.lower := by
  obtain ⟨⟨w, r⟩, hw⟩ : ∃ x, Pattern.noise.split? c.rest = some x := ⟨_, rfl⟩
  have hlow := Pattern.split?_lower (p := .noise) (by decide) c.rest
  rw [hw, Option.map_some] at hlow
  rw [skipGap_of_noise hw, skipGap_of_noise (c := c.lower) hlow]
  simp only [lower, size_lower]

end Cursor

/-- Texts that are the same in lower case are read in lockstep. -/
theorem lockstep_lower : Lockstep id fun c c' => c.lower = c'.lower where
  pos h := (congrArg Cursor.pos h).symm
  stop h := (congrArg Cursor.stop h).symm
  token {c c'} h r p hp := by
    have hcase := Rule.ignoresCase_of_mem_lexemes hp
    have hmap : c.lower.token? p = c'.lower.token? p := by rw [h]
    rw [Cursor.token?_lower hcase, Cursor.token?_lower hcase] at hmap
    generalize c.token? p = x at hmap
    generalize c'.token? p = y at hmap
    cases x with
    | none =>
      obtain rfl : y = none := by simpa using hmap.symm
      exact .none
    | some d =>
      obtain ⟨e, rfl, he⟩ := Option.map_eq_some_iff.mp hmap.symm
      exact .some he.symm
  gap {c c'} h := by
    show c.skipGap.lower = c'.skipGap.lower
    rw [← Cursor.skipGap_lower, ← Cursor.skipGap_lower, h]

/-- The pass over parentheses goes over letters. -/
theorem Nesting.Quoted.next_letter {n : Nesting} (h : n.Quoted) {c : Char} (hc : c.isAlpha) :
    n.next c = n := by
  have hne : ∀ d : Char, d.isAlpha = false → c ≠ d := fun _ => CharClass.ne_of_isAlpha hc
  cases hin : n.inComment with
  | true =>
    rw [Nesting.next, if_pos hin, decide_eq_true (hne '\n' (by decide)), ← hin]
  | false =>
    cases hq : n.quote with
    | none =>
      exact next_of_notMem ⟨hq, hin⟩ (Pattern.notMem_of_holds (k := .letter) (by decide) hc)
    | some q =>
      have hquote : q.isAlpha = false := by rcases h q hq with rfl | rfl <;> decide
      simp [Nesting.next, hin, hq, hne q hquote]

theorem Nesting.Quoted.next_toLower {n : Nesting} (h : n.Quoted) (c : Char) :
    n.next c.toLower = n.next c := by
  by_cases hc : c.isAlpha
  · rw [h.next_letter hc, h.next_letter (by rw [Char.isAlpha_toLower_eq_isAlpha, hc])]
  · rw [CharClass.toLower_of_not_isAlpha (by simpa using hc)]

theorem Nesting.Quoted.foldl_lower {n : Nesting} (h : n.Quoted) (s : Text) :
    s.lower.foldl Nesting.next n = s.foldl Nesting.next n := by
  induction s generalizing n with
  | nil => rfl
  | cons c s ih => rw [lower_cons, List.foldl_cons, List.foldl_cons, h.next_toLower, ih (h.next c)]

theorem nestingDepth_lower (s : Text) : nestingDepth s.lower = nestingDepth s := by
  have hstart : Nesting.initial.Quoted := by simp [Nesting.Quoted, Nesting.initial]
  rw [nestingDepth, nestingDepth, hstart.foldl_lower]

/-- Fragments that are the same in lower case are parsed alike. -/
theorem parseFragment_of_lower_eq {s t v w : Text} (h : s.lower = t.lower) (hw : v.lower = w.lower)
    (name : String) (r : Rule) (n : Nat) (o : Options) :
    parseFragment ⟨name, t⟩ r n w o = relocateResult id t (parseFragment ⟨name, s⟩ r n v o) := by
  have hsize : size w = size v := size_eq_of_lower_eq hw
  have hdepth : nestingDepth w = nestingDepth v := by
    rw [← nestingDepth_lower w, ← hw, nestingDepth_lower]
  have hskip : ∀ k, skipTrailing t k = skipTrailing s k := by
    intro k
    rw [← skipTrailing_lower t, ← h, skipTrailing_lower]
  have hstart : (Cursor.start v n).lower = (Cursor.start w n).lower := by
    simp only [Cursor.lower, Cursor.start, hw]
  have hmatch := lockstep_lower.matchFragment_eq strictMono_id hstart name s t r
  unfold parseFragment
  dsimp only
  rw [hsize, hdepth, hmatch]
  split_ifs
  · rfl
  · cases matchFragment ⟨name, s⟩ r n v with
    | error e => rfl
    | ok u =>
      simp only [relocateResult, bind, Except.bind, Tree.relocate_id, hskip]
      split_ifs <;> rfl

/-- Ranges of texts that are the same in lower case are parsed alike. -/
theorem parseRange_of_lower_eq {s t : Text} (h : s.lower = t.lower) (x : Span) (r : Rule)
    (o : Options) : parseRange t x r o = relocateResult id t (parseRange s x r o) := by
  have hslice : (s.slice? x.start x.stop).map lower = (t.slice? x.start x.stop).map lower := by
    rw [← slice?_lower, h, slice?_lower]
  unfold parseRange
  dsimp only
  cases hv : s.slice? x.start x.stop with
  | none =>
    rw [hv, Option.map_none, eq_comm, Option.map_eq_none_iff] at hslice
    rw [hslice, size_eq_of_lower_eq h]
    rfl
  | some v =>
    rw [hv, Option.map_some, eq_comm, Option.map_eq_some_iff] at hslice
    obtain ⟨w, hw, hlow⟩ := hslice
    rw [hw]
    exact parseFragment_of_lower_eq h hlow.symm o.sourceName r x.start o

/-! ## Logical lines -/

namespace Text

theorem physicalLines_lower (s : Text) : s.lower.physicalLines = s.physicalLines.map lower := by
  induction s with
  | nil => rfl
  | cons c s ih =>
    have hfeed := CharClass.toLower_eq_iff (c := c) (d := '\n') (by decide)
    rw [lower_cons, physicalLines, physicalLines, ih]
    simp only [hfeed]
    split_ifs
    · rfl
    · cases physicalLines s <;> rfl

theorem codeFrom_letter {q : Option Char} (hq : ∀ d ∈ q, d.isAlpha = false) {c : Char}
    (hc : c.isAlpha) (s : Text) : codeFrom q (c :: s) = c :: codeFrom q s := by
  have hne : ∀ d : Char, d.isAlpha = false → c ≠ d := fun _ => CharClass.ne_of_isAlpha hc
  cases q with
  | some q => rw [codeFrom, if_neg (hne q (hq q rfl))]
  | none =>
    have hquote : ¬(c = '"' ∨ c = '\'') := not_or.mpr ⟨hne _ (by decide), hne _ (by decide)⟩
    rw [codeFrom, if_neg (hne _ (by decide)), if_neg hquote]

theorem codeFrom_lower {q : Option Char} (hq : ∀ d ∈ q, d.isAlpha = false) (s : Text) :
    codeFrom q s.lower = (codeFrom q s).lower := by
  induction s generalizing q with
  | nil => cases q <;> rfl
  | cons c s ih =>
    rw [lower_cons]
    by_cases hc : c.isAlpha
    · have hlow : c.toLower.isAlpha := by rw [Char.isAlpha_toLower_eq_isAlpha, hc]
      rw [codeFrom_letter hq hc, codeFrom_letter hq hlow, lower_cons, ih hq]
    · have hc : c.isAlpha = false := by simpa using hc
      rw [CharClass.toLower_of_not_isAlpha hc]
      cases q with
      | some q =>
        rw [codeFrom, codeFrom, lower_cons, CharClass.toLower_of_not_isAlpha hc, ih]
        intro d hd
        split_ifs at hd
        · exact absurd hd (by simp)
        · exact hq d hd
      | none =>
        rw [codeFrom, codeFrom]
        split_ifs
        · rfl
        · rw [lower_cons, CharClass.toLower_of_not_isAlpha hc, ih]
          rintro d ⟨rfl⟩
          exact hc
        · rw [lower_cons, CharClass.toLower_of_not_isAlpha hc, ih (by simp)]

theorem code_lower (s : Text) : s.lower.code = s.code.lower := codeFrom_lower (by simp) s

theorem holds_blank_toLower (c : Char) :
    CharClass.blank.holds c.toLower = CharClass.blank.holds c :=
  CharClass.holds_toLower (by decide) c

theorem isCodeless_lower (s : Text) : s.lower.isCodeless = s.isCodeless := by
  rw [isCodeless, isCodeless, code_lower, all_lower holds_blank_toLower]

theorem body_lower (s : Text) : s.lower.body = s.body.lower :=
  trimEnd_lower (CharClass.holds_toLower (by decide)) s

theorem continues_lower (s : Text) : s.lower.continues = s.continues := by
  rw [continues, continues, code_lower, trimEnd_lower holds_blank_toLower, lower, List.getLast?_map]
  cases (trimEnd CharClass.blank.holds s.code).getLast? with
  | none => rfl
  | some c =>
    have hmark := CharClass.toLower_eq_iff (c := c) (d := '&') (by decide)
    simp [hmark]

end Text

namespace LineScan

theorem next_lower (n : LineScan) (w : Text) : n.next w.lower = n.next w := by
  unfold next
  simp only [body_lower, isCodeless_lower, continues_lower, size_lower]

theorem run_lower (n : LineScan) (ls : List Text) : n.run (ls.map lower) = n.run ls := by
  induction ls generalizing n with
  | nil => rfl
  | cons w ls ih => rw [List.map_cons, run_cons, run_cons, next_lower, ih]

theorem spans_lower (n : LineScan) (s : Text) : n.spans s.lower = n.spans s := by
  unfold spans
  rw [body_lower, size_lower]

end LineScan

/-- The same line in lower case. -/
def LogicalLine.lower (l : LogicalLine) : LogicalLine := ⟨l.span, l.text.lower⟩

theorem logicalLines_lower (s : Text) :
    logicalLines s.lower = (logicalLines s).map LogicalLine.lower := by
  rw [logicalLines, logicalLines, physicalLines_lower, LineScan.run_lower, LineScan.spans_lower,
    List.map_map]
  simp only [text_lower]
  rfl

theorem LogicalLine.statementStart_lower (l : LogicalLine) :
    l.lower.statementStart = l.statementStart := by
  have hnil : ∀ w : Text, w.lower = [] ↔ w = [] := fun w => by cases w <;> simp
  unfold statementStart
  simp only [lower, takeWhile_lower holds_blank_toLower, dropWhile_lower holds_blank_toLower,
    takeWhile_lower CharClass.isDigit_toLower, dropWhile_lower CharClass.isDigit_toLower,
    size_lower, hnil]

theorem startsComment_lower (s : Text) (n : Nat) : startsComment s.lower n = startsComment s n := by
  rw [startsComment, startsComment, dropBytes?_lower]
  cases s.dropBytes? n with
  | none => rfl
  | some w =>
    cases w with
    | nil => rfl
    | cons c w =>
      have hmark := CharClass.toLower_eq_iff (c := c) (d := '!') (by decide)
      simp [hmark]

/-- A result with its offsets as they are, about another text. -/
theorem relocateResult_id (s : Text) (x : Except ParseError Tree) : relocateResult id s x =
    x.mapError fun e => { e with source := { e.source with content := s } } := by
  cases x with
  | error e =>
    have hfault : e.fault.relocate id = e.fault := by cases e.fault <;> rfl
    rw [relocateResult, ParseError.relocate, hfault]
    rfl
  | ok t => rw [relocateResult, Tree.relocate_id, Except.mapError]

theorem locateOn?_lower (s : Text) (r : Rule) (o : Options) (l : LogicalLine) :
    locateOn? s.lower r o l.lower = locateOn? s r o l := by
  have hparse : ∀ x, (parseRange s.lower x r o).toOption = (parseRange s x r o).toOption := by
    intro x
    rw [parseRange_of_lower_eq (lower_lower s).symm, relocateResult_id]
    cases parseRange s x r o <;> rfl
  unfold locateOn?
  simp only [LogicalLine.statementStart_lower, startsComment_lower, hparse]
  rfl

theorem locate_lower (s : Text) (r : Rule) (o : Options) :
    locate s.lower r o = locate s r o := by
  rw [locate, locate, logicalLines_lower, List.filterMap_map]
  congr 1
  funext l
  exact locateOn?_lower s r o l

/-! ## Changes of case -/

/-- The second text is the first one with some of its ASCII letters in the other case. -/
def Text.Recased : Text → Text → Prop :=
  List.Forall₂ fun c d => d = c ∨ d = c.toLower ∨ d = c.toUpper

theorem Text.Recased.lower_eq {x y : Text} (h : x.Recased y) : x.lower = y.lower := by
  induction h with
  | nil => rfl
  | cons hc _ ih =>
    rw [lower_cons, lower_cons, ih]
    rcases hc with rfl | rfl | rfl
    · rfl
    · rw [Char.toLower_toLower_eq_toLower]
    · rw [Char.toLower_toUpper_eq_toLower]

/-- **Letter case never changes structure.**  If some letters of a text are changed in case, every
parse has the same result, with an error about the changed text in place of the same error about
the other, and the same hits are found. -/
theorem parse_recased {x y : Text} (h : x.Recased y) (r : Rule) (o : Options) :
    parse y r o =
        (parse x r o).mapError (fun e => { e with source := { e.source with content := y } }) ∧
      locate y r o = locate x r o := by
  have hlow := h.lower_eq
  refine ⟨?_, by rw [← locate_lower, ← hlow, locate_lower]⟩
  rw [parse, parse, size_eq_of_lower_eq hlow, parseRange_of_lower_eq hlow, relocateResult_id]

/-- A name, an operator and a value in both cases: a call, which is no assignment. -/
theorem parse_recased_of_call :
    let x : Text := ['F', '(', '.', 'n', 'o', 't', '.', '.', 'T', 'r', 'u', 'e', '.', ')']
    let y : Text := ['f', '(', '.', 'N', 'O', 't', '.', '.', 't', 'R', 'U', 'E', '.', ')']
    let t : Tree := ⟨.functionCall, ⟨0, 14⟩, [⟨.name, ⟨0, 1⟩, []⟩, ⟨.arguments, ⟨2, 13⟩,
      [⟨.argument, ⟨2, 13⟩, [⟨.valueReturningCode, ⟨2, 13⟩, [⟨.atomicValue, ⟨2, 13⟩,
        [⟨.boolean, ⟨2, 13⟩, [⟨.logicalPrefixOperator, ⟨2, 7⟩, [⟨.logicalNot, ⟨2, 7⟩, []⟩]⟩,
          ⟨.booleanValue, ⟨7, 13⟩, []⟩]⟩]⟩]⟩]⟩]⟩]⟩
    x.Recased y ∧ parse y .functionCall {} = .ok t ∧ locate y .functionCall {} = [t] ∧
      ∃ e, parse x .assignment {} = .error e ∧
        parse y .assignment {} = .error { e with source := { e.source with content := y } } := by
  intro x y t
  have hxy : x.Recased y := by simp [x, y, Text.Recased]
  have ht : parse x .functionCall {} = .ok t := by decide +kernel
  have hhit : locate x .functionCall {} = [t] := by decide +kernel
  obtain ⟨e, he⟩ : ∃ e, parse x .assignment {} = .error e := ⟨_, by rfl⟩
  obtain ⟨hcall, hlocate⟩ := parse_recased hxy .functionCall {}
  have hassign := (parse_recased hxy .assignment {}).1
  rw [ht] at hcall
  rw [hhit] at hlocate
  rw [he] at hassign
  exact ⟨hxy, hcall, hlocate, e, he, hassign⟩

end FreeForm

import FreeForm.Proofs.FirstLexemes
import FreeForm.Proofs.Reached
import Mathlib.Control.Monad.Basic

/-!
# Noise in front of a parse

A parse does not look for the start of a statement: where a text begins with noise, most rules do
not match.  The exceptions are rules that begin with an option, and rules that lead to them: noise
is passed behind the absent option as it is between any two parts.  `matchesLate_of_parse` says
exactly when a text that begins with noise has a match: when the text behind the noise begins with
one of the late lexemes of the rule (`Rule.lateLexemes`) and the rule matches there.
-/

namespace FreeForm

/-! ## Rules behind noise -/

namespace Rule

variable {r : Rule} {c : Cursor} {p : Pattern}

/-- Where a first lexeme stands, there is no noise. -/
theorem rest_skipGap_of_first (hp : p ∈ r.firstLexemes) (h : (p.split? c.rest).isSome) :
    c.skipGap.rest = c.rest := by
  refine Cursor.rest_skipGap_of_notMem fun x hx hm => ?_
  obtain ⟨s, hs⟩ := List.head?_eq_some_iff.mp hx
  rw [hs, Pattern.split?_eq_none_of_rejects (rejects_of_mem_firstLexemes hp hm)] at h
  simp at h

/-- A rule without late lexemes is absent where another lexeme stands behind the noise. -/
theorem reached_eq_none_of_apart (hr : r.lateLexemes = []) (h : ∀ q ∈ r.firstLexemes, q.Apart p)
    (hp : (p.split? c.skipGap.rest).isSome) : (r.read c).reached = none := by
  cases hf : (r.read c).found with
  | none => rw [Reading.reached, hf]; rfl
  | some x =>
    rcases begins_of_read hf with ⟨q, hq, hs⟩ | ⟨q, hq, -⟩
    · rw [← rest_skipGap_of_first hq hs] at hs
      rw [h q hq _ hs] at hp
      simp at hp
    · rw [hr] at hq
      exact absurd hq List.not_mem_nil

/-- The two truth values. -/
abbrev truthWords : Pattern :=
  .alt (.word ['.', 't', 'r', 'u', 'e', '.']) (.word ['.', 'f', 'a', 'l', 's', 'e', '.'])

theorem sign_absent (h : (Pattern.identifier.split? c.skipGap.rest).isSome) :
    (sign.read c).reached = none := by
  refine reached_eq_none_of_apart (by decide) (fun q hq => ?_) h
  obtain rfl : q = .one (.oneOf ['+', '-']) := List.mem_singleton.mp hq
  exact Pattern.apart_oneOf (by decide)

theorem lowerBound_absent (h : ((Pattern.lit [':']).split? c.skipGap.rest).isSome) :
    (lowerBound.read c).reached = none := by
  have hl : ∀ q ∈ lowerBound.firstLexemes, q.rejects ':' := by decide
  exact reached_eq_none_of_apart (by decide) (fun q hq => Pattern.apart_lit (hl q hq) []) h

theorem logicalPrefixOperator_absent (h : (truthWords.split? c.skipGap.rest).isSome) :
    (logicalPrefixOperator.read c).reached = none := by
  refine reached_eq_none_of_apart (by decide) (fun q hq => ?_) h
  obtain rfl : q = .word ['.', 'n', 'o', 't', '.'] := List.mem_singleton.mp hq
  exact .alt (Pattern.apart_word (by decide) (by decide))
    (Pattern.apart_word (by decide) (by decide))

theorem boolean_of_truthWord (h : (truthWords.split? c.skipGap.rest).isSome) :
    (boolean.read c).reached.isSome := by
  rw [reached_read_of_seq_opt rfl (logicalPrefixOperator_absent h), Phrase.read,
    reached_read_of_lexeme rfl, Cursor.token?, Option.isSome_map]
  exact h

theorem arrayIndexRegion_of_colon (h : ((Pattern.lit [':']).split? c.skipGap.rest).isSome) :
    (arrayIndexRegion.read c).reached.isSome := by
  rw [reached_read_of_seq_opt rfl (lowerBound_absent h)]
  refine (Phrase.isSome_reached_seq (Phrase.isSome_reached_opt _) _ _).trans ?_
  rw [Phrase.punct, Phrase.read, Reading.reached_ofToken, Cursor.token?, Option.isSome_map]
  exact h

/-- What follows the sign of a variable is read behind the noise. -/
theorem reached_accessedVariable (h : (Pattern.identifier.split? c.skipGap.rest).isSome) :
    (accessedVariable.read c).reached =
      ((Phrase.anyOf indexedArray [name]).read Rule.read Cursor.skipGap c.skipGap).reached :=
  reached_read_of_seq_opt rfl (sign_absent h)

theorem accessedVariable_of_identifier (h : (Pattern.identifier.split? c.skipGap.rest).isSome) :
    (accessedVariable.read c).reached.isSome := by
  rw [reached_accessedVariable h]
  refine Phrase.isSome_reached_anyOf (q := name) (by decide) ?_
  rw [reached_read_of_lexeme rfl, Cursor.token?, Option.isSome_map]
  exact h

theorem valueReturningCode_of_late (hp : p ∈ valueReturningCode.lateLexemes)
    (h : (p.split? c.skipGap.rest).isSome) : (valueReturningCode.read c).reached.isSome := by
  have hl : ∀ p ∈ valueReturningCode.lateLexemes, p = truthWords ∨ p = .identifier := by decide
  rcases hl p hp with rfl | rfl
  · have ha : (atomicValue.read c).reached.isSome :=
      isSome_reached_of_anyOf rfl (by decide) (boolean_of_truthWord h)
    exact isSome_reached_of_anyOf rfl (by decide) ha
  · exact isSome_reached_of_anyOf rfl (by decide) (accessedVariable_of_identifier h)

/-- The rules that can begin behind noise, apart from assignments, and with what. -/
theorem late_cases (hr : r ≠ assignment) (hp : p ∈ r.lateLexemes) :
    r ∈ [arrayIndexRegion, arrayIndex] ∧ p = .lit [':'] ∨
      r ∈ [boolean, booleans, atomicValue] ∧ p = truthWords ∨
      r = accessedVariable ∧ p = .identifier ∨
      r ∈ [valueReturningCode, argument, arguments, arithmeticStatement, relationalStatement,
        logicalStatement] ∧ p ∈ valueReturningCode.lateLexemes := by
  have h : ∀ r ∈ Rule.all, r ≠ assignment → ∀ p ∈ r.lateLexemes,
      r ∈ [arrayIndexRegion, arrayIndex] ∧ p = .lit [':'] ∨
        r ∈ [boolean, booleans, atomicValue] ∧ p = truthWords ∨
        r = accessedVariable ∧ p = .identifier ∨
        r ∈ [valueReturningCode, argument, arguments, arithmeticStatement, relationalStatement,
          logicalStatement] ∧ p ∈ valueReturningCode.lateLexemes := by decide +kernel
  exact h r r.mem_all hr p hp

/-- A late lexeme behind the noise is all that a rule needs, unless it is an assignment. -/
theorem isSome_reached_of_late (hr : r ≠ assignment) (hp : p ∈ r.lateLexemes)
    (h : (p.split? c.skipGap.rest).isSome) : (r.read c).reached.isSome := by
  rcases late_cases hr hp with ⟨hr, rfl⟩ | ⟨hr, rfl⟩ | ⟨rfl, rfl⟩ | ⟨hr, hp⟩
  · have hregion := arrayIndexRegion_of_colon h
    simp only [List.mem_cons, List.not_mem_nil, or_false] at hr
    rcases hr with rfl | rfl
    · exact hregion
    · exact isSome_reached_of_anyOf rfl (by decide) hregion
  · have hboolean := boolean_of_truthWord h
    simp only [List.mem_cons, List.not_mem_nil, or_false] at hr
    rcases hr with rfl | rfl | rfl
    · exact hboolean
    · exact isSome_reached_of_seq_many rfl hboolean
    · exact isSome_reached_of_anyOf rfl (by decide) hboolean
  · exact accessedVariable_of_identifier h
  · have hvalue := valueReturningCode_of_late hp h
    have hargument : (argument.read c).reached.isSome := by
      rw [reached_read_of_spaced rfl]
      exact hvalue
    have harith : (arithmeticStatement.read c).reached.isSome :=
      isSome_reached_of_seq_many rfl hvalue
    have hrel : (relationalStatement.read c).reached.isSome :=
      isSome_reached_of_seq_many rfl harith
    simp only [List.mem_cons, List.not_mem_nil, or_false] at hr
    rcases hr with rfl | rfl | rfl | rfl | rfl | rfl
    · exact hvalue
    · exact hargument
    · exact isSome_reached_of_seq_many rfl hargument
    · exact harith
    · exact hrel
    · exact isSome_reached_of_seq_many rfl hrel

/-- An assignment to a variable without a sign is read alike in front of the noise and behind. -/
theorem reached_assignment (h : (Pattern.identifier.split? c.skipGap.rest).isSome) :
    (assignment.read c).reached = (assignment.read c.skipGap).reached := by
  have hs : (accessedVariable.read c).reached = (accessedVariable.read c.skipGap).reached := by
    rw [reached_accessedVariable h, reached_accessedVariable, c.skipGap_skipGap]
    rw [c.skipGap_skipGap]
    exact h
  rw [reached_read_of_spaced rfl, reached_read_of_spaced rfl, Phrase.inOrder,
    Phrase.reached_read_seq, Phrase.reached_read_seq, Phrase.read, hs, Phrase.read]

/-- Behind the noise at the front of a text stands a match of the rule, and it begins with one of
the late lexemes of the rule. -/
def MatchesLate (r : Rule) (s : Text) : Prop :=
  (∃ p ∈ r.lateLexemes, (p.split? (Cursor.start s 0).skipGap.rest).isSome) ∧
    (r.read (Cursor.start s 0).skipGap).reached.isSome

/-- Where a late lexeme stands behind noise, the rule matches in front of it if it does behind. -/
theorem isSome_reached_skipGap (hp : p ∈ r.lateLexemes) (h : (p.split? c.skipGap.rest).isSome) :
    (r.read c.skipGap).reached.isSome = (r.read c).reached.isSome := by
  by_cases hr : r = assignment
  · have hl : ∀ p ∈ assignment.lateLexemes, p = .identifier := by decide
    rw [hr] at hp ⊢
    obtain rfl := hl p hp
    rw [reached_assignment h]
  · rw [isSome_reached_of_late hr hp h]
    rw [← c.skipGap_skipGap] at h
    exact isSome_reached_of_late hr hp h

/-- What a rule needs to match at the front of a text that begins with noise. -/
theorem isSome_reached_start_iff {s : Text} (h : 0 < skipNoise s 0) :
    (r.read (.start s 0)).reached.isSome ↔ r.MatchesLate s := by
  constructor
  · intro hr
    obtain ⟨x, hx, -⟩ := Option.map_eq_some_iff.mp (Option.isSome_iff_exists.mp hr).choose_spec
    rcases begins_of_read hx with ⟨p, hp, hs⟩ | ⟨p, hp, hs⟩
    · -- a first lexeme at the front leaves no room for noise
      obtain ⟨w, hw, hn, -⟩ := Cursor.skipGap_start s
      rw [rest_skipGap_of_first hp hs] at hw
      obtain rfl : w = [] := List.append_left_eq_self.mp hw.symm
      rw [Text.size_nil] at hn
      omega
    · exact ⟨⟨p, hp, hs⟩, (isSome_reached_skipGap hp hs).trans hr⟩
  · rintro ⟨⟨p, hp, hs⟩, hr⟩
    exact (isSome_reached_skipGap hp hs).symm.trans hr

end Rule

/-! ## Parses behind noise -/

/-- A parse that need not be complete returns a tree if the nesting is not too deep and the rule
matches. -/
theorem exists_parse_iff {s : Text} {r : Rule} {o : Options} (ho : o.requireComplete = false) :
    (∃ t, parse s r o = .ok t) ↔
      nestingDepth s ≤ o.maxNesting ∧ (r.read (.start s 0)).reached.isSome := by
  constructor
  · rintro ⟨t, ht⟩
    obtain ⟨hn, d, hf, -⟩ := parse_eq_ok_iff.mp ht
    exact ⟨hn, by rw [Reading.reached, hf]; rfl⟩
  · rintro ⟨hn, hr⟩
    obtain ⟨e, he⟩ := Option.isSome_iff_exists.mp hr
    obtain ⟨⟨ts, d⟩, hf, -⟩ := Option.map_eq_some_iff.mp he
    obtain ⟨us, rfl, -⟩ := Rule.derives_of_read hf
    exact ⟨_, parse_eq_ok_iff.mpr ⟨hn, d, hf, by simp [ho]⟩⟩

/-- **Noise in front of a text keeps most rules from matching.**  A match is found only behind an
absent option: the text behind the noise begins with a late lexeme of the rule, and the rule matches
there.  In this case a parse that need not be complete does return a tree. -/
theorem matchesLate_of_parse {s : Text} (h : 0 < skipNoise s 0) (r : Rule) (o : Options) :
    (∀ t, parse s r o = .ok t → r.MatchesLate s) ∧
      (o.requireComplete = false → nestingDepth s ≤ o.maxNesting → r.MatchesLate s →
        ∃ t, parse s r o = .ok t) := by
  refine ⟨fun t ht => ?_, fun ho hn hm => ?_⟩
  · obtain ⟨-, d, hf, -⟩ := parse_eq_ok_iff.mp ht
    exact (Rule.isSome_reached_start_iff h).mp (by rw [Reading.reached, hf]; rfl)
  · exact (exists_parse_iff ho).mpr ⟨hn, (Rule.isSome_reached_start_iff h).mpr hm⟩

/-- A name behind blanks is an accessed variable, although no parse skips blanks in front. -/
theorem matchesLate_of_indented_name :
    let s : Text := [' ', ' ', 'x']
    0 < skipNoise s 0 ∧
      parse s .accessedVariable {} = .ok ⟨.accessedVariable, ⟨0, 3⟩, [⟨.name, ⟨2, 3⟩, []⟩]⟩ ∧
      Rule.accessedVariable.MatchesLate s ∧ ∃ t, parse s .accessedVariable {} = .ok t := by
  intro s
  have hs : 0 < skipNoise s 0 := by decide
  have hp : parse s .accessedVariable {} =
      .ok ⟨.accessedVariable, ⟨0, 3⟩, [⟨.name, ⟨2, 3⟩, []⟩]⟩ := by decide +kernel
  obtain ⟨h, k⟩ := matchesLate_of_parse hs .accessedVariable {}
  exact ⟨hs, hp, h _ hp, k rfl (by decide) (h _ hp)⟩

end FreeForm

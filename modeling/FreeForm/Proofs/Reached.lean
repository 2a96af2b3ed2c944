import FreeForm.Reading.Depth

/-!
# The place that a reading reaches

Whether a phrase applies and where it ends does not depend on the trees that it leaves.
`Reading.reached` forgets them, and the lemmas here compute it for each form of phrases.
-/

namespace FreeForm

namespace Reading

/-- The place behind what was found. -/
def reached (r : Reading) : Option Cursor := r.found.map Prod.snd

theorem reached_ofToken (p : Pattern) (c : Cursor) : (ofToken p c).reached = c.token? p := by
  simp [reached, ofToken, Function.comp_def]

theorem reached_close (q : Reading) (r : Rule) (n : Nat) : (q.close r n).reached = q.reached := by
  simp [reached, close, Function.comp_def]

theorem reached_orElse (q : Reading) (other : Unit → Reading) :
    (q.orElse other).reached = q.reached.or (other ()).reached := by
  unfold orElse reached
  cases h : q.found with
  | none => rfl
  | some x => rw [h]; rfl

theorem reached_andThen (q : Reading) (next : Cursor → Reading) :
    (q.andThen next).reached = q.reached.bind fun c => (next c).reached := by
  unfold andThen reached
  cases h : q.found with
  | none => rw [h]; rfl
  | some x => simp [Function.comp_def]

end Reading

namespace Phrase

variable {call : Rule → Cursor → Reading} {skip : Cursor → Cursor}

theorem reached_read_seq (a b : Phrase) (c : Cursor) :
    ((seq a b).read call skip c).reached =
      (a.read call skip c).reached.bind fun d => (b.read call skip (skip d)).reached :=
  Reading.reached_andThen ..

theorem isSome_reached_opt (a : Phrase) (c : Cursor) :
    ((opt a).read call skip c).reached.isSome := by
  rw [read, Reading.reached_orElse, Option.isSome_or]
  exact Bool.or_true _

theorem isSome_reached_many (a : Phrase) (c : Cursor) :
    ((many a).read call skip c).reached.isSome := by
  rw [read, Reading.reached_orElse, Option.isSome_or]
  exact Bool.or_true _

/-- A second part that cannot fail does not matter. -/
theorem isSome_reached_seq {b : Phrase} (hb : ∀ d, (b.read call skip d).reached.isSome)
    (a : Phrase) (c : Cursor) :
    ((seq a b).read call skip c).reached.isSome = (a.read call skip c).reached.isSome := by
  rw [reached_read_seq]
  cases (a.read call skip c).reached with
  | none => rfl
  | some d => exact hb _

/-- A choice applies where one of the rules does. -/
theorem isSome_reached_anyOf {q r : Rule} {rs : List Rule} {c : Cursor} (hq : q ∈ r :: rs)
    (h : (call q c).reached.isSome) : ((anyOf r rs).read call skip c).reached.isSome := by
  induction rs generalizing r with
  | nil =>
    rw [List.mem_singleton.mp hq] at h
    exact h
  | cons p rs ih =>
    have hs : (anyOf r (p :: rs)).read call skip c =
      (call r c).orElse fun _ => (anyOf p rs).read call skip c := rfl
    rw [hs, Reading.reached_orElse, Option.isSome_or, Bool.or_eq_true]
    rcases List.mem_cons.mp hq with rfl | hq
    · exact .inl h
    · exact .inr (ih hq)

/-- Behind an option that is absent, the rest is read where the noise ends. -/
theorem reached_read_seq_opt {r : Rule} {b : Phrase} {c : Cursor}
    (h : (call r c).reached = none) :
    ((seq (opt (.call r)) b).read call skip c).reached = (b.read call skip (skip c)).reached := by
  rw [reached_read_seq, read, Reading.reached_orElse, read, h]
  rfl

end Phrase

namespace Rule

open Phrase

variable {r q : Rule} {a : Phrase} {c : Cursor}

theorem reached_read_of_lexeme {p : Pattern} (hr : r.production = .lexeme p) :
    (r.read c).reached = c.token? p := by
  rw [r.read_eq, hr, Reading.reached_close, Production.read, Reading.reached_ofToken]

theorem reached_read_of_spaced (hr : r.production = .spaced a) :
    (r.read c).reached = (a.read Rule.read Cursor.skipGap c).reached := by
  rw [r.read_eq, hr, Reading.reached_close, Production.read]

theorem isSome_reached_of_anyOf {rs : List Rule} (hr : r.production = .spaced (anyOf q rs))
    {p : Rule} (hp : p ∈ q :: rs) (h : (p.read c).reached.isSome) : (r.read c).reached.isSome := by
  rw [reached_read_of_spaced hr]
  exact isSome_reached_anyOf hp h

theorem isSome_reached_of_seq_many {b : Phrase}
    (hr : r.production = .spaced (.seq (.call q) (.many b))) (h : (q.read c).reached.isSome) :
    (r.read c).reached.isSome := by
  rw [reached_read_of_spaced hr, isSome_reached_seq (isSome_reached_many b)]
  exact h

/-- A rule that begins with an option, where the option is absent. -/
theorem reached_read_of_seq_opt (hr : r.production = .spaced (.seq (.opt (.call q)) a))
    (hq : (q.read c).reached = none) :
    (r.read c).reached = (a.read Rule.read Cursor.skipGap c.skipGap).reached := by
  rw [reached_read_of_spaced hr, reached_read_seq_opt hq]

end Rule

end FreeForm

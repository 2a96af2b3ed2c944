import FreeForm.Proofs.Derivation
import FreeForm.Proofs.NestingScan
import Mathlib.Control.Monad.Basic

/-!
# The nesting of calls

The nesting of parentheses is measured before a parse and is to bound the nesting of calls in its
tree.  It does where the measure and the grammar agree on where a comment ends.  They need not: for
the grammar a comment ends at a carriage return, for `nestingDepth` only at a line feed.

With every carriage return taken for a line feed the measure does bound the calls, in every tree.
The argument follows the derivation of the tree along the text.  Between two lexemes the pass over
the characters is in no quotes, and its depth is the number of parentheses that the rules on the way
have open (`Derives.scan`).  A call of a function opens one, and its arguments stand inside.
-/

namespace FreeForm

/-- The nodes from the root of a tree down to a leaf. -/
inductive Tree.LeafPath : Tree → List Tree → Prop
  | leaf {t : Tree} (h : t.children = []) : LeafPath t [t]
  | step {t u : Tree} {p : List Tree} (h : u ∈ t.children) (hp : LeafPath u p) : LeafPath t (t :: p)

/-- The number of calls of functions along a path. -/
def callsAlong (p : List Tree) : Nat := p.countP (·.rule = .functionCall)

/-! ## Levels of parentheses in the grammar -/

namespace Rule

/-- Whether a rule is a single lexeme. -/
def isLexeme (r : Rule) : Bool :=
  match r.production with
  | .lexeme _ => true
  | _ => false

/-- How many parentheses a rule has around the rules that it calls, single lexemes apart. -/
def shelter (r : Rule) : Nat := if r = functionCall then 1 else 0

end Rule

theorem callsAlong_cons (t : Tree) (p : List Tree) :
    callsAlong (t :: p) = t.rule.shelter + callsAlong p := by
  simp [callsAlong, List.countP_cons, Rule.shelter, Nat.add_comm]

namespace Phrase

/-- The number of parentheses open behind a phrase, if `l` are open in front of it.  There is none
if some rule other than a single lexeme is called while fewer than `k` are open. -/
def levelAfter (k : Nat) : Phrase → Nat → Option Nat
  | token p, l => p.levelAfter l
  | .call r, l => if k ≤ l ∨ r.isLexeme then some l else none
  | seq a b, l => (a.levelAfter k l).bind (b.levelAfter k)
  | alt a b, l => if a.levelAfter k l = b.levelAfter k l then a.levelAfter k l else none
  | opt a, l | many a, l => if a.levelAfter k l = some l then some l else none

/-- Whether a phrase opens parentheses in any case. -/
def opens : Phrase → Bool
  | token p => p.opens
  | .call _ => false
  | seq a b => a.opens || b.opens
  | alt a b => a.opens && b.opens
  | opt _ => false
  | many _ => false

end Phrase

/-- Whether a right-hand side closes the parentheses that it opens and has `k` of them around the
rules that it calls. -/
def Production.shelters (k : Nat) : Production → Bool
  | .lexeme p => p.levelAfter 0 = some 0 ∧ k = 0
  | .compact a | .spaced a => a.levelAfter k 0 = some 0 ∧ (k = 0 ∨ k = 1 ∧ a.opens)

theorem Rule.shelters_production (r : Rule) : r.production.shelters r.shelter := by
  cases r <;> decide

theorem Rule.solid_of_mem_lexemes {r : Rule} {p : Pattern} (hp : p ∈ r.production.lexemes) :
    p.solid := by
  have h : ∀ p ∈ r.production.lexemes, p.solid := by cases r <;> decide
  exact h p hp

/-! ## The pass along a derivation -/

namespace Nesting

variable {n m : Nesting} {k b l : Nat} {c d e : Cursor} {ts us : List Tree}

/-- Between two parts the pass finds no parentheses. -/
theorem Between.skip {skip : Cursor → Cursor} (hs : Spacing skip) (h : n.Between c.rest) :
    ∃ w, c.Passes w (skip c) ∧ (n.scan w).Between (skip c).rest ∧ (n.scan w).depth = n.depth := by
  cases hs with
  | compact => exact ⟨[], ⟨rfl, rfl⟩, h, rfl⟩
  | spaced =>
    obtain ⟨w, hw, hpass, -⟩ := Cursor.passes_skipGap c
    rw [Pattern.split?_gap] at hw
    by_cases hc : n.inComment
    -- the comment ends here, at a line break, and no noise begins with one
    · have hno : Pattern.noise.split? c.rest = some ([], c.rest) :=
        Pattern.split?_noise_of_notMem fun x hx => by
          rcases h.inComment hc x hx with rfl | rfl <;> decide
      obtain ⟨rfl, hr⟩ : [] = w ∧ c.rest = c.skipGap.rest := by
        simpa using hno.symm.trans hw
      exact ⟨[], hpass, hr ▸ h, rfl⟩
    · have hn : n.Outside := ⟨h.quote, by simpa using hc⟩
      obtain ⟨heq, hb⟩ := Pattern.scan_noise hn hw
      refine ⟨w, hpass, hb, ?_⟩
      rcases heq with heq | heq <;> rw [heq]

/-- The pass stands at `m` at the place `d`, with `l` parentheses open beyond the first `b`.  Around
the calls in `ts` it has found these `b`, `k` more, and one for each call. -/
structure Counts (k b l : Nat) (m : Nesting) (d : Cursor) (ts : List Tree) : Prop where
  between : m.Between d.rest
  depth : m.depth = b + l
  calls : ∀ t ∈ ts, ∀ p, t.LeafPath p → callsAlong p = 0 ∨ b + k + callsAlong p ≤ m.deepest

/-- Trees in front of a stretch stay counted behind it. -/
theorem Counts.append {l' : Nat} {w : Text} (h : Counts k b l n d ts)
    (hm : Counts k b l' (n.scan w) e us) : Counts k b l' (n.scan w) e (ts ++ us) where
  between := hm.between
  depth := hm.depth
  calls t ht p hp := by
    rcases List.mem_append.mp ht with ht | ht
    · have hle := n.deepest_le_scan w
      rcases h.calls t ht p hp with h0 | hb
      · exact .inl h0
      · exact .inr (Nat.le_trans hb hle)
    · exact hm.calls t ht p hp

end Nesting

open Nesting

variable {skip : Cursor → Cursor} {a : Phrase} {k b l l' : Nat} {n : Nesting} {c d : Cursor}
  {ts : List Tree}

/-- A call leaves the level as it is, and is sheltered unless it is a single lexeme. -/
theorem Phrase.levelAfter_call {r : Rule} (h : (call r).levelAfter k l = some l') :
    l' = l ∧ (k ≤ l ∨ r.isLexeme) := by
  unfold levelAfter at h
  split at h
  · rename_i hk
    exact ⟨(Option.some.inj h).symm, hk⟩
  · simp at h

theorem Phrase.levelAfter_alt {e : Phrase} (h : (alt a e).levelAfter k l = some l') :
    a.levelAfter k l = some l' ∧ e.levelAfter k l = some l' := by
  unfold levelAfter at h
  split at h
  · rename_i he
    exact ⟨h, he ▸ h⟩
  · simp at h

/-- An option or a repetition leaves the level as it is. -/
theorem Phrase.levelAfter_same {x : Option Nat}
    (h : (if x = some l then some l else none) = some l') : l' = l ∧ x = some l := by
  split at h
  · rename_i hx
    exact ⟨(Option.some.inj h).symm, hx⟩
  · simp at h

/-- A node is counted where its children are: it shelters the calls below it, and if it is a call
itself its own parentheses are there. -/
theorem Nesting.Counts.node {r : Rule} {m : Nesting} {s : Span}
    (h : Counts r.shelter n.depth 0 m d ts) (hr : r.shelter = 0 ∨ r.shelter = 1 ∧ a.opens)
    (ho : a.opens → n.depth + 1 ≤ m.deepest) (hn : n.depth = b + l) (hkl : k ≤ l) :
    Counts k b l m d [⟨r, s, ts⟩] where
  between := h.between
  depth := h.depth.trans hn
  calls t ht p hp := by
    obtain rfl := List.mem_singleton.mp ht
    have hself : r.shelter = 0 ∨ b + k + r.shelter ≤ m.deepest := by
      rcases hr with hr | ⟨hr, hopen⟩
      · exact .inl hr
      · have := ho hopen
        omega
    rcases hp with - | ⟨hu, hq⟩
    · rw [callsAlong_cons]
      exact hself
    · rw [callsAlong_cons]
      rcases h.calls _ hu _ hq with h0 | hb
      · rw [h0, Nat.add_zero]
        exact hself
      · show _ ∨ b + k + (r.shelter + _) ≤ _
        omega

/-- **Along a derivation the depth is the number of parentheses that are open in the grammar**, and
around the calls of functions there are as many as they need. -/
theorem Derives.counts (h : Derives skip a c ts d) (hs : Spacing skip)
    (hp : ∀ p ∈ a.lexemes, p.solid) (hl : a.levelAfter k l = some l') (hn : n.Between c.rest)
    (hd : n.depth = b + l) :
    ∃ w, c.Passes w d ∧ Counts k b l' (n.scan w) d ts ∧
      (a.opens → b + 1 ≤ (n.scan w).deepest) := by
  induction h generalizing k b l l' n with
  | @token _ p c d h =>
    obtain ⟨w, hw, hpass, -⟩ := Cursor.passes_of_token? h
    have hout := hn.outside (hp p (List.mem_singleton_self p)) (Option.isSome_of_eq_some hw)
    obtain ⟨hm, hdepth, hopen⟩ := Pattern.scan_lexeme hl hout hd hw
    refine ⟨w, hpass, ⟨hm.between _, hdepth, by simp⟩, fun ho => ?_⟩
    have := hopen ho
    omega
  | @lexeme _ r p c d hr h =>
    obtain ⟨w, hw, hpass, -⟩ := Cursor.passes_of_token? h
    have hsolid : p.solid := r.solid_of_mem_lexemes (by rw [hr]; exact List.mem_singleton_self p)
    have hout := hn.outside hsolid (Option.isSome_of_eq_some hw)
    have hsh := r.shelters_production
    simp only [hr, Production.shelters, decide_eq_true_eq] at hsh
    obtain ⟨hm, hdepth, -⟩ := Pattern.scan_lexeme hsh.1 hout (Nat.add_zero _).symm hw
    obtain ⟨rfl, -⟩ := Phrase.levelAfter_call hl
    refine ⟨w, hpass, ⟨hm.between _, by rw [hdepth, hd, Nat.add_zero], ?_⟩, by simp [Phrase.opens]⟩
    intro t ht q hq
    obtain rfl := List.mem_singleton.mp ht
    rcases hq with - | ⟨hu, -⟩
    · exact .inl ((callsAlong_cons _ _).trans hsh.2)
    · simp at hu
  | @compact _ r a c d ts hr h ih | @spaced _ r a c d ts hr h ih =>
    have hsh := r.shelters_production
    simp only [hr, Production.shelters, decide_eq_true_eq] at hsh
    have hsolid : ∀ p ∈ a.lexemes, p.solid := fun p hp =>
      r.solid_of_mem_lexemes (by rw [hr]; exact hp)
    obtain ⟨w, hw, hc, ho⟩ := ih (by constructor) hsolid hsh.1 hn (Nat.add_zero _).symm
    obtain ⟨rfl, hkl⟩ := Phrase.levelAfter_call hl
    have hkl' : k ≤ l' := by simpa [Rule.isLexeme, hr] using hkl
    exact ⟨w, hw, hc.node hsh.2 ho hd hkl', by simp [Phrase.opens]⟩
  | @seq _ a e c d f ts us ha hb iha ihb =>
    simp only [Phrase.lexemes, List.mem_append] at hp
    obtain ⟨j, hj, hl⟩ := Option.bind_eq_some_iff.mp hl
    obtain ⟨v, hv, hcv, hov⟩ := iha hs (fun p h => hp p (.inl h)) hj hn hd
    obtain ⟨g, hg, hgap, hgd⟩ := hcv.between.skip hs
    obtain ⟨w, hw, hcw, how⟩ := ihb hs (fun p h => hp p (.inr h)) hl hgap (hgd.trans hcv.depth)
    have hscan : n.scan (v ++ g ++ w) = (n.scan v).scan (g ++ w) := by
      rw [List.append_assoc, scan_append]
    rw [← scan_append] at hcw how
    refine ⟨v ++ g ++ w, (hv.trans hg).trans hw, ?_, fun ho => ?_⟩
    · rw [hscan]
      exact hcv.append hcw
    · rw [hscan]
      simp only [Phrase.opens, Bool.or_eq_true] at ho
      rcases ho with ho | ho
      · exact Nat.le_trans (hov ho) (deepest_le_scan _ _)
      · exact how ho
  | left _ ih =>
    have hpa := fun p h => hp p (List.mem_append_left _ h)
    obtain ⟨w, hw, hc, ho⟩ := ih hs hpa (Phrase.levelAfter_alt hl).1 hn hd
    refine ⟨w, hw, hc, fun h => ho ?_⟩
    simp only [Phrase.opens, Bool.and_eq_true] at h
    exact h.1
  | right _ ih =>
    have hpb := fun p h => hp p (List.mem_append_right _ h)
    obtain ⟨w, hw, hc, ho⟩ := ih hs hpb (Phrase.levelAfter_alt hl).2 hn hd
    refine ⟨w, hw, hc, fun h => ho ?_⟩
    simp only [Phrase.opens, Bool.and_eq_true] at h
    exact h.2
  | absent | never =>
    obtain ⟨rfl, -⟩ := Phrase.levelAfter_same hl
    exact ⟨[], ⟨rfl, rfl⟩, ⟨hn, hd, by simp⟩, by simp [Phrase.opens]⟩
  | present _ ih | once _ ih =>
    obtain ⟨rfl, hl⟩ := Phrase.levelAfter_same hl
    obtain ⟨w, hw, hc, -⟩ := ih hs hp hl hn hd
    exact ⟨w, hw, hc, by simp [Phrase.opens]⟩
  | again _ _ ihm iha =>
    obtain ⟨v, hv, hcv, -⟩ := ihm hs hp hl hn hd
    obtain ⟨rfl, hl⟩ := Phrase.levelAfter_same hl
    obtain ⟨g, hg, hgap, hgd⟩ := hcv.between.skip hs
    obtain ⟨w, hw, hcw, -⟩ := iha hs hp hl hgap (hgd.trans hcv.depth)
    rw [← scan_append] at hcw
    refine ⟨v ++ g ++ w, (hv.trans hg).trans hw, ?_, by simp [Phrase.opens]⟩
    rw [List.append_assoc, scan_append]
    exact hcv.append hcw

/-- The calls in a tree nest no deeper than the parentheses of the text do when each carriage return
is taken for a line feed. -/
theorem callsAlong_le_lineFeeds {s : Text} {r : Rule} {o : Options} {t : Tree} {p : List Tree}
    (h : parse s r o = .ok t) (hp : t.LeafPath p) : callsAlong p ≤ nestingDepth s.lineFeeds := by
  obtain ⟨d, ts, -, rfl, hd⟩ := derives_of_parse h
  have hcall : Derives id (.call r) (.start s 0) [⟨r, ⟨0, d.stop⟩, ts⟩] d :=
    derives_call_iff.mpr ⟨ts, rfl, hd⟩
  have hout : Outside Nesting.initial := ⟨rfl, rfl⟩
  have hl : (Phrase.call r).levelAfter 0 0 = some 0 := by simp [Phrase.levelAfter]
  have hd0 : Nesting.initial.depth = 0 + 0 := rfl
  obtain ⟨w, hw, hc, -⟩ :=
    hcall.counts .compact (by simp [Phrase.lexemes]) hl (hout.between _) hd0
  have hs : Nesting.initial.scan s = (Nesting.initial.scan w).scan d.rest := by
    rw [← scan_append, ← hw.rest]
    rfl
  have hle : (Nesting.initial.scan w).deepest ≤ nestingDepth s.lineFeeds := by
    show _ ≤ (Nesting.initial.scan s).deepest
    rw [hs]
    exact deepest_le_scan _ _
  rcases hc.calls _ (List.mem_singleton_self _) p hp with h0 | hb
  · omega
  · omega

/-! ## Where comments end -/

/-- No comment of a text goes on behind a carriage return: in a comment a carriage return stands
directly before a line feed or at the end. -/
def Text.NoReturnInComment (s : Text) : Prop :=
  ∀ u v, s = u ++ '\r' :: v → (u.foldl Nesting.next .initial).inComment →
    ∀ x ∈ v.head?, x = '\n'

/-- The quotes that a pass can be in. -/
def Nesting.Quoted (n : Nesting) : Prop := ∀ q ∈ n.quote, q = '"' ∨ q = '\''

theorem Nesting.Quoted.next {n : Nesting} (h : n.Quoted) (x : Char) : (n.next x).Quoted := by
  unfold Nesting.Quoted Nesting.next at *
  grind

/-- Outside comments a line break changes nothing. -/
theorem Nesting.Quoted.next_lineBreak {n : Nesting} (h : n.Quoted) (hc : n.inComment = false)
    {x : Char} (hx : x = '\n' ∨ x = '\r') : n.next x = n := by
  cases hq : n.quote with
  | none =>
    have hm : x ∉ Nesting.marks := by rcases hx with rfl | rfl <;> decide
    exact next_of_notMem ⟨hq, hc⟩ hm
  | some q =>
    have hne : x ≠ q := by
      rcases h q hq with rfl | rfl <;> rcases hx with rfl | rfl <;> decide
    simp [Nesting.next, hc, hq, hne]

/-- A carriage return with a line feed ends a comment for both passes. -/
theorem Nesting.Quoted.return_feed {n : Nesting} (h : n.Quoted) (hc : n.inComment) (s : Text) :
    n.scan ('\r' :: '\n' :: s) = Nesting.scan { n with inComment := false } s ∧
      ('\r' :: '\n' :: s).foldl Nesting.next n =
        s.foldl Nesting.next { n with inComment := false } := by
  have hfeed : n.next '\n' = { n with inComment := false } := by simp [Nesting.next, hc]
  have hstay : Nesting.next { n with inComment := false } '\n' = { n with inComment := false } :=
    next_lineBreak (n := { n with inComment := false }) h rfl (.inl rfl)
  have hret : n.next '\r' = n := by
    cases n
    simp_all [Nesting.next]
  constructor
  · rw [scan_cons, scan_cons, if_pos rfl, if_neg (by decide), hfeed, hstay]
  · rw [List.foldl_cons, List.foldl_cons, hret, hfeed]

/-- A pass finds the same depth with carriage returns and with line feeds in their place. -/
theorem Nesting.deepest_scan {n : Nesting} {s : Text} (hq : n.Quoted)
    (h : ∀ u v, s = u ++ '\r' :: v → (u.foldl Nesting.next n).inComment →
      ∀ x ∈ v.head?, x = '\n') :
    (n.scan s).deepest = (s.foldl Nesting.next n).deepest := by
  induction hlen : s.length using Nat.strongRecOn generalizing s n with
  | ind m ih =>
    cases s with
    | nil => rfl
    | cons x s =>
      have htail : ∀ u v, s = u ++ '\r' :: v → (u.foldl Nesting.next (n.next x)).inComment →
          ∀ y ∈ v.head?, y = '\n' := fun u v hs => h (x :: u) v (by rw [hs]; rfl)
      -- only a carriage return in a comment sets the two passes apart, and the line feed behind it
      -- brings them together again
      by_cases hx : x = '\r' ∧ n.inComment
      · obtain ⟨rfl, hc⟩ := hx
        cases s with
        | nil => simp [Nesting.scan, Text.lineFeeds, Nesting.next, hc]
        | cons y s =>
          obtain rfl : y = '\n' := h [] _ rfl hc y rfl
          obtain ⟨hscan, hfold⟩ := hq.return_feed hc s
          rw [hscan, hfold]
          refine ih _ ?_ hq (fun u v hs hu => h ('\r' :: '\n' :: u) v (by rw [hs]; rfl) ?_) rfl
          · rw [← hlen, List.length_cons, List.length_cons]
            omega
          · rwa [(hq.return_feed hc u).2]
      · have hnext : n.next (if x = '\r' then '\n' else x) = n.next x := by
          split
          · rename_i hr
            have hc : n.inComment = false := by simpa [hr] using hx
            rw [hq.next_lineBreak hc (.inl rfl), hq.next_lineBreak hc (.inr hr)]
          · rfl
        rw [scan_cons, List.foldl_cons, hnext]
        exact ih _ (by simp [← hlen]) (hq.next x) htail rfl

theorem nestingDepth_lineFeeds {s : Text} (h : s.NoReturnInComment) :
    nestingDepth s.lineFeeds = nestingDepth s :=
  Nesting.deepest_scan (fun q hq => by simp [Nesting.initial] at hq) h

/-- **The nesting limit bounds the nesting of calls** in the tree of a parse, provided that no
comment of the text goes on behind a carriage return.  In any case the calls nest no deeper than the
parentheses do when comments end at carriage returns. -/
theorem callsAlong_le_of_parse {s : Text} {r : Rule} {o : Options} {t : Tree} {p : List Tree}
    (h : parse s r o = .ok t) (hp : t.LeafPath p) :
    callsAlong p ≤ nestingDepth s.lineFeeds ∧
      (s.NoReturnInComment → callsAlong p ≤ o.maxNesting) := by
  have hle := callsAlong_le_lineFeeds h hp
  refine ⟨hle, fun hs => ?_⟩
  rw [nestingDepth_lineFeeds hs] at hle
  exact Nat.le_trans hle (parse_eq_ok_iff.mp h).1

/-- A call in the arguments of a call reaches the limit. -/
theorem callsAlong_of_call_in_call :
    let s : Text := ['f', '(', 'g', '(', ')', ')']
    ∃ t p, parse s .functionCall { maxNesting := 2 } = .ok t ∧ t.LeafPath p ∧ callsAlong p = 2 ∧
      s.NoReturnInComment ∧ callsAlong p ≤ nestingDepth s.lineFeeds ∧ callsAlong p ≤ 2 := by
  intro s
  let call : Tree := ⟨.functionCall, ⟨2, 5⟩, [⟨.name, ⟨2, 3⟩, []⟩]⟩
  let argument : Tree := ⟨.argument, ⟨2, 5⟩, [⟨.valueReturningCode, ⟨2, 5⟩, [call]⟩]⟩
  let t : Tree := ⟨.functionCall, ⟨0, 6⟩, [⟨.name, ⟨0, 1⟩, []⟩, ⟨.arguments, ⟨2, 5⟩, [argument]⟩]⟩
  have ht : parse s .functionCall { maxNesting := 2 } = .ok t := by decide +kernel
  have hs : s.NoReturnInComment := by
    intro u v h
    have hr : '\r' ∈ s := by simp [h]
    exact absurd hr (by decide)
  have hp : t.LeafPath [t, ⟨.arguments, ⟨2, 5⟩, [argument]⟩, argument,
      ⟨.valueReturningCode, ⟨2, 5⟩, [call]⟩, call, ⟨.name, ⟨2, 3⟩, []⟩] :=
    .step (List.mem_cons_of_mem _ List.mem_cons_self) <| .step List.mem_cons_self <|
      .step List.mem_cons_self <| .step List.mem_cons_self <| .step List.mem_cons_self <| .leaf rfl
  obtain ⟨h, k⟩ := callsAlong_le_of_parse ht hp
  exact ⟨t, _, ht, hp, rfl, hs, h, k hs⟩

/-- A carriage return that ends a comment in a continuation hides a call from the limit. -/
theorem callsAlong_exceeds_limit :
    let s : Text := ['f', '(', '&', '!', '\r', '&', 'g', '(', ')', ')']
    ∃ t p, parse s .functionCall { maxNesting := 1 } = .ok t ∧ t.LeafPath p ∧ callsAlong p = 2 := by
  intro s
  let call : Tree := ⟨.functionCall, ⟨6, 9⟩, [⟨.name, ⟨6, 7⟩, []⟩]⟩
  let argument : Tree := ⟨.argument, ⟨6, 9⟩, [⟨.valueReturningCode, ⟨6, 9⟩, [call]⟩]⟩
  let t : Tree := ⟨.functionCall, ⟨0, 10⟩, [⟨.name, ⟨0, 1⟩, []⟩, ⟨.arguments, ⟨6, 9⟩, [argument]⟩]⟩
  have ht : parse s .functionCall { maxNesting := 1 } = .ok t := by decide +kernel
  have hp : t.LeafPath [t, ⟨.arguments, ⟨6, 9⟩, [argument]⟩, argument,
      ⟨.valueReturningCode, ⟨6, 9⟩, [call]⟩, call, ⟨.name, ⟨6, 7⟩, []⟩] :=
    .step (List.mem_cons_of_mem _ List.mem_cons_self) <| .step List.mem_cons_self <|
      .step List.mem_cons_self <| .step List.mem_cons_self <| .step List.mem_cons_self <| .leaf rfl
  exact ⟨t, _, ht, hp, rfl⟩

end FreeForm

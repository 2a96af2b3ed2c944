import FreeForm.Nesting
import FreeForm.Proofs.NoiseForm

/-!
# Counting parentheses along lexemes and noise

The pass that measures the nesting of parentheses goes by characters, and a parse goes by lexemes
and noise.  `Nesting.scan` is this pass on a text in which every carriage return is taken for a line
feed, so that a comment ends for it where it ends in the grammar.  Then noise changes nothing but
that it may end in a comment, and a lexeme changes the depth as it should.
-/

namespace FreeForm

/-- The text with a line feed for each carriage return. -/
def Text.lineFeeds (s : Text) : Text := s.map fun c => if c = '\r' then '\n' else c

@[simp] theorem Text.lineFeeds_append (s t : Text) :
    (s ++ t).lineFeeds = s.lineFeeds ++ t.lineFeeds := List.map_append

namespace Nesting

/-- Where a pass stands after one more text, in which comments end at line breaks of any kind. -/
def scan (n : Nesting) (w : Text) : Nesting := w.lineFeeds.foldl next n

theorem scan_append (n : Nesting) (v w : Text) : n.scan (v ++ w) = (n.scan v).scan w := by
  rw [scan, Text.lineFeeds_append, List.foldl_append]
  rfl

theorem scan_cons (n : Nesting) (c : Char) (w : Text) :
    n.scan (c :: w) = (n.next (if c = '\r' then '\n' else c)).scan w := rfl

theorem deepest_le_foldl (n : Nesting) (w : Text) : n.deepest ≤ (w.foldl next n).deepest := by
  induction w generalizing n with
  | nil => exact Nat.le_refl _
  | cons c w ih => exact Nat.le_trans (n.deepest_le_next c) (ih _)

theorem deepest_le_scan (n : Nesting) (w : Text) : n.deepest ≤ (n.scan w).deepest :=
  deepest_le_foldl n _

/-- In no quotes and in no comment. -/
structure Outside (n : Nesting) : Prop where
  quote : n.quote = none
  inComment : n.inComment = false

/-- Between two lexemes: in no quotes, and in a comment only where it ends. -/
structure Between (n : Nesting) (rest : Text) : Prop where
  quote : n.quote = none
  inComment : n.inComment → ∀ x ∈ rest.head?, x = '\n' ∨ x = '\r'

theorem Outside.between {n : Nesting} (h : n.Outside) (rest : Text) : n.Between rest :=
  ⟨h.quote, fun hc => absurd hc (by simp [h.inComment])⟩

/-- The characters that a pass takes note of outside quotes and comments. -/
def marks : List Char := ['"', '\'', '!', '(', ')']

theorem next_of_notMem {n : Nesting} (h : n.Outside) {c : Char} (hc : c ∉ marks) :
    n.next c = n := by
  simp only [marks, List.mem_cons, List.not_mem_nil, or_false, not_or] at hc
  simp [next, h.quote, h.inComment, hc]

/-- Where no mark stands, nothing changes. -/
theorem scan_of_notMem {n : Nesting} (h : n.Outside) {w : Text} (hw : ∀ c ∈ w, c ∉ marks) :
    n.scan w = n := by
  induction w with
  | nil => rfl
  | cons c w ih =>
    have hc : (if c = '\r' then '\n' else c) ∉ marks := by
      split
      · decide
      · exact hw c List.mem_cons_self
    rw [scan_cons, next_of_notMem h hc]
    exact ih fun x hx => hw x (List.mem_cons_of_mem c hx)

/-- A comment goes on up to a line break. -/
theorem scan_of_inComment {n : Nesting} (h : n.inComment) {w : Text}
    (hw : ∀ c ∈ w, c ≠ '\n' ∧ c ≠ '\r') : n.scan w = n := by
  induction w with
  | nil => rfl
  | cons c w ih =>
    obtain ⟨hn, hr⟩ := hw c List.mem_cons_self
    have hnext : n.next c = n := by
      cases n
      simp_all [next]
    rw [scan_cons, if_neg hr, hnext]
    exact ih fun x hx => hw x (List.mem_cons_of_mem c hx)

end Nesting

/-! ## Patterns without marks -/

namespace Pattern

variable {n : Nesting} {p : Pattern} {s w r : Text}

/-- A lexeme without marks changes nothing. -/
theorem scan_of_isFreeOf (hp : p.isFreeOf Nesting.marks) (hn : n.Outside)
    (h : p.split? s = some (w, r)) : n.scan w = n :=
  Nesting.scan_of_notMem hn (notMem_of_isFreeOf hp h)

/-! ## Noise -/

/-- A comment is entered, and a line break or nothing comes next. -/
theorem scan_comment (hn : n.Outside) (h : comment.split? s = some (w, r)) :
    n.scan w = { n with inComment := true } ∧ ∀ x ∈ r.head?, x = '\n' ∨ x = '\r' := by
  obtain ⟨t, u, v, ht, hv, rfl⟩ := split?_seq_eq_some.mp h
  have hmark : n.scan ['!'] = { n with inComment := true } := by
    simp [Nesting.scan, Text.lineFeeds, Nesting.next, hn.quote, hn.inComment]
  have hbody : ∀ c ∈ v, c ≠ '\n' ∧ c ≠ '\r' := fun c hc => by
    simpa [CharClass.holds] using holds_of_run hv c hc
  rw [eq_of_split?_lit ht, Nesting.scan_append, hmark, Nesting.scan_of_inComment rfl hbody]
  refine ⟨rfl, fun x hx => ?_⟩
  by_cases hxn : x = '\n'
  · exact .inl hxn
  · exact .inr (by simpa [CharClass.holds, hxn] using not_holds_of_run hv x hx)

/-- A line break ends a comment. -/
theorem scan_newline (hq : n.quote = none) (h : newline.split? s = some (w, r)) :
    n.scan w = { n with inComment := false } := by
  have hw : w = ['\n'] ∨ w = ['\r', '\n'] ∨ w = ['\r'] := by
    rw [newline, split?_alt_eq_some, split?_alt_eq_some] at h
    rcases h with h | ⟨-, h | ⟨-, h⟩⟩
    · exact .inl (eq_of_split?_lit h)
    · exact .inr (.inl (eq_of_split?_lit h))
    · exact .inr (.inr (eq_of_split?_lit h))
  rcases n with ⟨q, i, d, m⟩
  obtain rfl : q = none := hq
  rcases hw with rfl | rfl | rfl <;> cases i <;> rfl

/-- The blanks, the comment and the line break at the end of a continued line change nothing. -/
theorem scan_lineEnd (hn : n.Outside) (h : lineEnd.split? s = some (w, r)) : n.scan w = n := by
  obtain ⟨b, q, k, m, l, hb, hk, hl, rfl⟩ := split?_lineEnd_eq_some.mp h
  rw [Nesting.scan_append, Nesting.scan_append, scan_of_isFreeOf (by decide) hn hb]
  have hc : n.scan k = n ∨ n.scan k = { n with inComment := true } := by
    rcases split?_alt_eq_some.mp hk with hk | ⟨-, hk⟩
    · exact .inr (scan_comment hn hk).1
    · rw [eq_of_split?_lit hk]
      exact .inl rfl
  have hsame : { n with inComment := false } = n := by rw [← hn.inComment]
  rcases hc with hc | hc
  · rw [hc, scan_newline hn.quote hl, hsame]
  · rw [hc, scan_newline (n := { n with inComment := true }) hn.quote hl]
    exact hsame

theorem scan_lineEnds (hn : n.Outside) (h : (many lineEnd).split? s = some (w, r)) :
    n.scan w = n := by
  refine many_induction (P := fun _ w _ => n.scan w = n) (by decide) (fun s _ => rfl) ?_ h
  intro s t r u v ht _ hu
  rw [Nesting.scan_append, scan_lineEnd hn ht, hu]

/-- A blank or a continuation changes nothing. -/
theorem scan_whitespace (hn : n.Outside) (h : whitespace.split? s = some (w, r)) :
    n.scan w = n := by
  rcases split?_alt_eq_some.mp h with k | ⟨-, k⟩
  · exact scan_of_isFreeOf (by decide) hn k
  · obtain ⟨x, e, y, f, b, -, he, hf, hb, rfl⟩ := split?_continuation_eq_some.mp k
    have hmark : n.scan ['&'] = n :=
      Nesting.scan_of_notMem hn (List.forall_mem_singleton.mpr (by decide))
    have hblanks : n.scan b = n := Nesting.scan_of_notMem hn fun c hc =>
      notMem_of_holds (k := .blank) (by decide) (hb c hc)
    rw [← List.singleton_append, Nesting.scan_append, hmark, Nesting.scan_append,
      scan_lineEnd hn he, Nesting.scan_append, scan_lineEnds hn hf, Nesting.scan_append, hblanks,
      hmark]

/-- Noise changes nothing but that it may end in a comment, where a line break or nothing comes
next. -/
theorem scan_noise (hn : n.Outside) (h : noise.split? s = some (w, r)) :
    (n.scan w = n ∨ n.scan w = { n with inComment := true }) ∧ (n.scan w).Between r := by
  refine many_induction (P := fun _ w r =>
    (n.scan w = n ∨ n.scan w = { n with inComment := true }) ∧ (n.scan w).Between r)
    (a := noiseItem) rfl (fun s _ => ⟨.inl rfl, hn.between s⟩) ?_ h
  intro s t r u v ht hu ih
  rw [Nesting.scan_append]
  rcases split?_alt_eq_some.mp ht with ht | ⟨-, ht⟩
  · rwa [scan_whitespace hn ht]
  · obtain ⟨hs, hr⟩ := scan_comment hn ht
    have hbreak : noise.split? r = some ([], r) := split?_noise_of_notMem fun x hx => by
      rcases hr x hx with rfl | rfl <;> decide
    obtain ⟨rfl, rfl⟩ : [] = u ∧ r = v := by
      have := hbreak.symm.trans hu
      simpa using this
    rw [hs]
    exact ⟨.inr rfl, hn.quote, fun _ => hr⟩

/-! ## Lexemes -/

/-- Within quotes nothing happens up to the quote. -/
theorem scan_within_quotes {q : Char} (hq : n.quote = some q) (hc : n.inComment = false)
    (hnl : q ≠ '\n') (hw : q ∉ w) : n.scan w = n := by
  induction w with
  | nil => rfl
  | cons c w ih =>
    simp only [List.mem_cons, not_or] at hw
    have hne : (if c = '\r' then '\n' else c) ≠ q := by
      split
      · exact hnl.symm
      · exact Ne.symm hw.1
    have hnext : n.next (if c = '\r' then '\n' else c) = n := by simp [Nesting.next, hc, hq, hne]
    rw [Nesting.scan_cons, hnext]
    exact ih hw.2

/-- A quotation changes nothing, whatever it holds. -/
theorem scan_quotation {q : Char} (hq : q = '"' ∨ q = '\'') (hn : n.Outside)
    (h : (quotedWith q).split? s = some (w, r)) : n.scan w = n := by
  obtain ⟨b, rfl, hb⟩ := split?_quotedWith h
  have hfeed : (if q = '\r' then '\n' else q) = q := by rcases hq with rfl | rfl <;> rfl
  have hopen : n.next q = { n with quote := some q } := by
    simp [Nesting.next, hn.quote, hn.inComment, hq]
  have hwithin : Nesting.scan { n with quote := some q } b = { n with quote := some q } :=
    scan_within_quotes rfl hn.inComment (by rcases hq with rfl | rfl <;> decide) hb
  have hclose : Nesting.next { n with quote := some q } q = n := by
    rcases n with ⟨p, i, d, m⟩
    obtain rfl : p = none := hn.quote
    obtain rfl : i = false := hn.inComment
    simp [Nesting.next]
  rw [Nesting.scan_cons, hfeed, hopen, Nesting.scan_append, hwithin, Nesting.scan_cons, hfeed,
    hclose]
  rfl

/-- Whether a lexeme opens parentheses. -/
def opens (p : Pattern) : Bool := p = .lit ['('] ∨ p = .lit ['(', '/']

/-- Whether a lexeme closes parentheses. -/
def closes (p : Pattern) : Bool := p = .lit [')'] ∨ p = .lit ['/', ')']

theorem scan_opens (hp : p.opens) (hn : n.Outside) (h : p.split? s = some (w, r)) :
    n.scan w = { n with depth := n.depth + 1, deepest := max n.deepest (n.depth + 1) } := by
  have hw : w = ['('] ∨ w = ['(', '/'] := by
    simp only [opens, decide_eq_true_eq] at hp
    rcases hp with rfl | rfl
    · exact .inl (eq_of_split?_lit h)
    · exact .inr (eq_of_split?_lit h)
  rcases n with ⟨q, i, d, m⟩
  obtain rfl : q = none := hn.quote
  obtain rfl : i = false := hn.inComment
  rcases hw with rfl | rfl <;> rfl

theorem scan_closes (hp : p.closes) (hn : n.Outside) (h : p.split? s = some (w, r)) :
    n.scan w = { n with depth := n.depth - 1 } := by
  have hw : w = [')'] ∨ w = ['/', ')'] := by
    simp only [closes, decide_eq_true_eq] at hp
    rcases hp with rfl | rfl
    · exact .inl (eq_of_split?_lit h)
    · exact .inr (eq_of_split?_lit h)
  rcases n with ⟨q, i, d, m⟩
  obtain rfl : q = none := hn.quote
  obtain rfl : i = false := hn.inComment
  rcases hw with rfl | rfl <;> rfl

/-- The number of parentheses open behind a lexeme, if `l` are open in front of it. -/
def levelAfter (p : Pattern) (l : Nat) : Option Nat :=
  if p.opens then some (l + 1)
  else if p.closes then if l = 0 then none else some (l - 1)
  else if p.isFreeOf Nesting.marks ∨ p = .alt (quotedWith '"') (quotedWith '\'') then some l
  else none

/-- A lexeme changes the depth as its level says. -/
theorem scan_lexeme {b l l' : Nat} (hp : p.levelAfter l = some l') (hn : n.Outside)
    (hd : n.depth = b + l) (h : p.split? s = some (w, r)) :
    (n.scan w).Outside ∧ (n.scan w).depth = b + l' ∧
      (p.opens → b + l + 1 ≤ (n.scan w).deepest) := by
  unfold levelAfter at hp
  split at hp
  · rename_i ho
    obtain rfl := Option.some.inj hp
    rw [scan_opens ho hn h]
    refine ⟨⟨hn.quote, hn.inComment⟩, ?_, fun _ => ?_⟩
    · show n.depth + 1 = b + (l + 1)
      omega
    · show b + l + 1 ≤ max n.deepest (n.depth + 1)
      omega
  rename_i ho
  split at hp
  · rename_i hc
    split at hp
    · simp at hp
    · obtain rfl := Option.some.inj hp
      rw [scan_closes hc hn h]
      refine ⟨⟨hn.quote, hn.inComment⟩, ?_, fun h => absurd h ho⟩
      show n.depth - 1 = b + (l - 1)
      omega
  split at hp
  · rename_i hk
    obtain rfl := Option.some.inj hp
    have hs : n.scan w = n := by
      rcases hk with hk | rfl
      · exact scan_of_isFreeOf hk hn h
      · rcases split?_alt_eq_some.mp h with h | ⟨-, h⟩
        · exact scan_quotation (.inl rfl) hn h
        · exact scan_quotation (.inr rfl) hn h
    rw [hs]
    exact ⟨hn, hd, fun h => absurd h ho⟩
  · simp at hp

end Pattern

/-- Whether a pattern takes some text and does not begin with a line break. -/
def Pattern.solid (p : Pattern) : Bool := p.consumes && p.rejects '\n' && p.rejects '\r'

/-- Where a lexeme can be read, the pass is in no comment. -/
theorem Nesting.Between.outside {n : Nesting} {p : Pattern} {s : Text} (h : n.Between s)
    (hp : p.solid) (hs : (p.split? s).isSome) : n.Outside := by
  refine ⟨h.quote, ?_⟩
  simp only [Pattern.solid, Bool.and_eq_true] at hp
  obtain ⟨⟨hp, hlf⟩, hcr⟩ := hp
  cases hc : n.inComment with
  | false => rfl
  | true =>
    have hnone : p.split? s = none := by
      cases s with
      | nil => exact Pattern.split?_nil_of_consumes hp
      | cons x s =>
        rcases h.inComment hc x rfl with rfl | rfl
        · exact Pattern.split?_eq_none_of_rejects hlf s
        · exact Pattern.split?_eq_none_of_rejects hcr s
    rw [hnone] at hs
    simp at hs

end FreeForm

import FreeForm.Proofs.Interchange
import FreeForm.Proofs.LineEnds

/-!
# Statements over several lines

Continuations are recognised twice: by the grammar, as noise between the parts of a rule, and by the
scan for logical lines, from the last character of code on each physical line.

A text is joined if it consists of characters of one line, quotations within a line, and
continuations (`Text.Joined`).  The scan takes a joined text that ends with code for one logical
line (`LineScan.lines_run_of_joined`).  And what a run has read up to the end of a lexeme is joined,
if its strings are each on one line (`Cursor.Joined.token`, `joinedTo_of_parse`).  So both agree on
where a statement ends that is a match of a rule (`first_line_of_parse`).
-/

namespace FreeForm

namespace Text

open Pattern

variable {b s t u w x y : Text} {c q : Char}

/-! ## Joined lines -/

/-- The characters that end a line, or with which a quotation, a comment or a continuation
begins. -/
def lineMarks : List Char := quotes ++ ['!', '&', '\n', '\r']

/-- A text whose lines are joined by continuations, and whose quotations are each on one line. -/
inductive Joined : Text → Prop
  | nil : Joined []
  | plain {c : Char} {x : Text} (hc : c ∉ lineMarks) (h : Joined x) : Joined (c :: x)
  | quotation {q : Char} {b x : Text} (hq : q ∈ quotes) (hb : q ∉ b) (hl : '\n' ∉ b)
    (h : Joined x) : Joined (q :: (b ++ q :: x))
  | continuation {g x : Text} (hg : Pattern.continuation.split? g = some (g, [])) (h : Joined x) :
    Joined (g ++ x)

/-- The text ends with a character that is neither part of noise nor of a line break. -/
def EndsCode (s : Text) : Prop := ∃ c ∈ s.getLast?, c ∉ noiseMarks ++ ['\n', '\r']

theorem EndsCode.ne_nil (h : s.EndsCode) : s ≠ [] := by
  rintro rfl
  obtain ⟨c, hc, -⟩ := h
  simp at hc

theorem EndsCode.append (h : t.EndsCode) (s : Text) : (s ++ t).EndsCode := by
  obtain ⟨c, hc, hm⟩ := h
  refine ⟨c, ?_, hm⟩
  rw [List.getLast?_append, Option.mem_def.mp hc, Option.some_or, Option.mem_some_iff]

theorem Joined.append (h : Joined u) (k : Joined x) : Joined (u ++ x) := by
  induction h with
  | nil => exact k
  | plain hc _ ih => exact .plain hc ih
  | quotation hq hb hl _ ih =>
    rw [List.cons_append, List.append_assoc, List.cons_append]
    exact .quotation hq hb hl ih
  | continuation hg _ ih =>
    rw [List.append_assoc]
    exact .continuation hg ih

theorem Joined.of_plain (ht : ∀ c ∈ t, c ∉ lineMarks) : Joined t := by
  induction t with
  | nil => exact .nil
  | cons c t ih =>
    exact .plain (ht c List.mem_cons_self) (ih fun d hd => ht d (List.mem_cons_of_mem c hd))

theorem PlainCode.of_notMem (hc : c ∉ lineMarks) : PlainCode [c] := by
  simp only [lineMarks, quotes, List.mem_append, List.mem_cons, List.not_mem_nil, or_false,
    not_or] at hc
  intro d hd
  rw [List.mem_singleton.mp hd]
  simp [CharClass.lineBreak, CharClass.holds, hc]

/-- A continuation ends with its second mark. -/
theorem getLast?_of_continuation {g r : Text} (hg : Pattern.continuation.split? s = some (g, r)) :
    g.getLast? = some '&' := by
  obtain ⟨x, e, y, f, b, -, -, -, -, rfl⟩ := split?_continuation_eq_some.mp hg
  simp [List.getLast?_cons]

theorem Joined.head (h : Joined s) : ∀ c ∈ s.head?, ¬CharClass.lineBreak.holds c := by
  cases h with
  | nil => simp
  | @plain c x hc _ =>
    rintro d ⟨rfl⟩
    exact (PlainCode.of_notMem hc c (List.mem_singleton_self c)).1
  | @quotation q b x hq _ _ _ =>
    rintro d ⟨rfl⟩
    exact fun hbreak => notMem_of_holds (k := .lineBreak) (by decide) hbreak hq
  | @continuation g x hg _ =>
    obtain ⟨_, _, _, _, _, hmark, -⟩ := split?_continuation_eq_some.mp hg
    rw [hmark]
    rintro d ⟨rfl⟩
    decide

/-- Noise in front of a lexeme consists of blanks and continuations: a comment outside
continuations would go on to the end of the line. -/
theorem joined_of_noise (h : Pattern.noise.split? s = some (t, u))
    (hu : ∃ c ∈ u.head?, ¬CharClass.lineBreak.holds c) : Joined t := by
  refine many_induction (P := fun _ t u => (∃ c ∈ u.head?, ¬CharClass.lineBreak.holds c) →
    Joined t) (a := noiseItem) (by decide) (fun _ _ _ => .nil) ?_ h hu
  intro s t r u v ht hnoise ih hv
  refine .append ?_ (ih hv)
  rcases split?_alt_eq_some.mp ht with ht | ⟨-, ht⟩
  · rcases split?_alt_eq_some.mp ht with ht | ⟨-, ht⟩
    · exact .of_plain (notMem_of_isFreeOf (by decide) ht)
    · have hself := split?_continuation_append ht []
      rw [List.append_nil] at hself
      simpa using Joined.continuation hself .nil
  · -- behind a comment stands a line break, if anything, and no noise
    obtain ⟨_, m, _, -, hm, rfl⟩ := split?_seq_eq_some.mp ht
    have hbreak : ∀ c ∈ r.head?, CharClass.lineBreak.holds c := by
      intro c hc
      have hstop := not_holds_of_run hm c hc
      simpa [CharClass.lineBreak, CharClass.holds, or_iff_not_imp_left] using hstop
    have hnone : Pattern.noise.split? r = some ([], r) :=
      split?_noise_of_notMem fun c hc => notMem_of_holds (by decide) (hbreak c hc)
    obtain ⟨-, rfl⟩ := Prod.mk.inj (Option.some.inj (hnone.symm.trans hnoise))
    obtain ⟨c, hc, hno⟩ := hv
    exact absurd (hbreak c hc) hno

/-! ## Code -/

theorem codeFrom_quoted (hb : q ∉ b) (r : Text) :
    codeFrom (some q) (b ++ q :: r) = b ++ q :: code r := by
  induction b with
  | nil => rw [List.nil_append, codeFrom, if_pos rfl, code, List.nil_append]
  | cons c b ih =>
    simp only [List.mem_cons, not_or] at hb
    rw [List.cons_append, codeFrom, if_neg (Ne.symm hb.1), ih hb.2, List.cons_append]

theorem ClosedCode.quotation (hq : q ∈ quotes) (hb : q ∉ b) (hl : '\n' ∉ b) :
    ClosedCode (q :: (b ++ [q])) where
  line := by
    have hfeed : q ≠ '\n' := by
      rintro rfl
      exact absurd hq (by decide)
    simp [hfeed.symm, hl]
  code_append r := by
    have hmark : q ≠ '!' := by
      rintro rfl
      exact absurd hq (by decide)
    have hquote : q = '"' ∨ q = '\'' := by simpa [quotes] using hq
    rw [List.cons_append, List.append_assoc, List.singleton_append, code, codeFrom, if_neg hmark,
      if_pos hquote, codeFrom_quoted hb]
    simp

end Text

/-! ## The scan over joined lines -/

namespace LineScan

open Text

variable {n : LineScan} {b s x : Text}

theorem lines_prefix_run (n : LineScan) (ls : List Text) : n.lines <+: (n.run ls).lines := by
  induction ls generalizing n with
  | nil => exact List.prefix_rfl
  | cons w ls ih =>
    refine List.IsPrefix.trans ?_ (ih (n.next w))
    rcases n.next_cases w with ⟨-, -, h⟩ | ⟨-, h⟩ | ⟨-, -, h⟩ <;> rw [h]
    exact List.prefix_append _ _

/-- A line that ends with code ends its logical line. -/
theorem next_of_endsCode (hb : ClosedCode b) (he : b.EndsCode) (n : LineScan) :
    (n.next (b ++ ['\n'])).lines =
      n.lines ++ [⟨n.pending.getD n.offset, n.offset + size b⟩] := by
  obtain ⟨c, hc, hm⟩ := he
  simp only [Pattern.noiseMarks, List.mem_append, List.mem_cons, List.not_mem_nil, or_false,
    not_or] at hm
  have hblank : ¬CharClass.blank.holds c := by simp [CharClass.blank, CharClass.holds, hm]
  have hunbroken : b.Unbroken := by
    intro d hd
    obtain rfl : c = d := Option.mem_unique hc hd
    simp [CharClass.lineBreak, CharClass.holds, hm]
  have hbody : body (b ++ ['\n']) = b := body_line hunbroken ⟨0, rfl⟩
  have hcode : ¬b.isCodeless := by
    rw [isCodeless, hb.code_eq]
    exact fun hall => hblank (List.all_eq_true.mp hall c (List.mem_of_getLast? hc))
  have hends : ¬b.continues := by
    have htrim : trimEnd CharClass.blank.holds b = b :=
      trimEnd_eq_self fun d hd => Option.mem_unique hc hd ▸ hblank
    rw [continues, hb.code_eq, htrim, hc]
    simp [hm]
  rcases n.next_cases (b ++ ['\n']) with ⟨-, h, -⟩ | ⟨h, -⟩ | ⟨-, -, h⟩
  · rw [hbody] at h
    exact absurd h hcode
  · rw [hbody] at h
    exact absurd h hends
  · rw [h, hbody]

/-- **A joined text is one logical line**, if it ends with code in front of a line feed.  `b` is
what stands in front of it on its first physical line. -/
theorem lines_run_of_joined (hx : Joined x) : ∀ {b : Text} {n : LineScan}, ClosedCode b →
    x.pairsReturns → (b ++ x).EndsCode →
      n.lines ++ [⟨n.pending.getD n.offset, n.offset + size (b ++ x)⟩] <+:
        (n.run (b ++ x ++ '\n' :: s).physicalLines).lines := by
  -- `b` takes up characters and quotations; a continuation starts it anew with its second mark
  induction hx with
  | nil =>
    intro b n hb _ he
    rw [List.append_nil] at he ⊢
    rw [physicalLines_line hb.line, run_cons, ← next_of_endsCode hb he]
    exact lines_prefix_run _ _
  | @plain c x hc _ ih =>
    intro b n hb hr he
    have happ : b ++ c :: x = b ++ [c] ++ x := by simp
    rw [happ] at he ⊢
    exact ih (hb.append (PlainCode.of_notMem hc).closed) (pairsReturns_of_append (s := [c]) hr) he
  | @quotation q d x hq hd hl _ ih =>
    intro b n hb hr he
    have happ : b ++ q :: (d ++ q :: x) = b ++ q :: (d ++ [q]) ++ x := by simp
    have hrest : q :: (d ++ q :: x) = q :: (d ++ [q]) ++ x := by simp
    rw [happ] at he ⊢
    rw [hrest] at hr
    exact ih (hb.append (.quotation hq hd hl)) (pairsReturns_of_append hr) he
  | @continuation g x hg _ ih =>
    intro b n hb hr he
    have hlast := getLast?_of_continuation hg
    have hleft := pairsReturns_of_append_left hr (by rw [hlast]; decide)
    obtain ⟨k, m, hk, hrun, hpending, hlines, hoff⟩ :=
      run_continuation hb hg hleft n (x ++ '\n' :: s)
    have hmark : PlainCode ['&'] := List.forall_mem_singleton.mpr (by decide)
    have hends : (k ++ ['&'] ++ x).EndsCode := by
      rw [EndsCode, ← List.append_assoc, List.getLast?_append, List.getLast?_append, hlast] at he
      rw [EndsCode, List.getLast?_append, List.getLast?_append]
      exact he
    have hnext := ih (n := m) ((PlainCode.of_blank hk).closed.append hmark.closed)
      (pairsReturns_of_append hr) hends
    have hsize : m.offset + size (k ++ ['&'] ++ x) = n.offset + size (b ++ (g ++ x)) := by
      rw [← List.append_assoc, size_append, size_append (b ++ g)]
      omega
    have happ : b ++ (g ++ x) ++ '\n' :: s = b ++ g ++ (x ++ '\n' :: s) := by simp
    rw [hlines, hpending, Option.getD_some, hsize, List.append_assoc _ x] at hnext
    rwa [happ, hrun]

end LineScan

open Text

theorem Text.slice?_zero_append (w v : Text) : (w ++ v).slice? 0 (size w) = some w := by
  have hslice := slice?_size_append [] w v
  rwa [List.nil_append, size_nil, Nat.zero_add] at hslice

/-- The logical line that begins with a joined text ends with it. -/
theorem head?_logicalLines {w : Text} (hw : Joined w) (hr : w.pairsReturns) (he : w.EndsCode)
    (s : Text) : (logicalLines (w ++ '\n' :: s)).head? = some ⟨⟨0, size w⟩, w⟩ := by
  obtain ⟨n, hn⟩ : ∃ n, n = LineScan.run ⟨0, none, []⟩ (physicalLines (w ++ '\n' :: s)) := ⟨_, rfl⟩
  have hrun := LineScan.lines_run_of_joined (s := s) (b := []) (n := ⟨0, none, []⟩) hw
    ⟨by simp, fun _ => rfl⟩ hr he
  have hspans : n.lines <+: n.spans (w ++ '\n' :: s) := by
    unfold LineScan.spans
    split
    · exact List.prefix_rfl
    · exact List.prefix_append _ _
  simp only [List.nil_append, Option.getD_none, Nat.zero_add, ← hn] at hrun
  obtain ⟨ls, hls⟩ := hrun.trans hspans
  rw [logicalLines, ← hn, ← hls]
  simp [Span.text, slice?_zero_append]

/-! ## What a run has read -/

/-- Between the last lexeme and the next one stands noise. -/
theorem Cursor.EndsAt.exists_gap {s : Text} {c f : Cursor} (hf : c.EndsAt s f)
    (hc : c.skipGap = c) : ∃ u g, s = u ++ (g ++ c.rest) ∧ size u = c.stop ∧
      c.pos = size (u ++ g) ∧ Pattern.noise.split? (g ++ c.rest) = some (g, c.rest) := by
  have hgap : f.skipGap = c := hf.gap.trans hc
  obtain ⟨g, hg, hfc, -⟩ := f.passes_skipGap
  rw [Pattern.split?_gap, hgap] at hg
  rw [hgap] at hfc
  obtain ⟨u, hs, hpos⟩ := hf.place
  refine ⟨u, g, by rw [hs, hfc.rest], ?_, ?_, by rw [← hfc.rest, hg]⟩
  · rw [← hf.stop, hf.stop_eq, hpos]
  · rw [hfc.pos, hpos, size_append]

/-- The text up to the offset `n` is joined, and ends with code if it is not empty. -/
def Text.JoinedTo (s : Text) (n : Nat) : Prop :=
  ∃ u y, s = u ++ y ∧ size u = n ∧ Joined u ∧ (u = [] ∨ u.EndsCode)

/-- The text up to the last lexeme in front of `c` is joined, and behind it stands only noise. -/
def Cursor.Joined (s : Text) (c : Cursor) : Prop :=
  (c.At s ∧ ∃ f, c.EndsAt s f) ∧ s.JoinedTo c.stop

/-- A lexeme that is joined and ends with code may follow. -/
theorem Cursor.Joined.token {s : Text} {c d : Cursor} {p : Pattern} (h : c.Joined s)
    (hp : p.isClear) (ht : c.token? p = some d)
    (hw : ∀ w, p.split? c.rest = some (w, d.rest) → c.Passes w d → Text.Joined w ∧ w.EndsCode) :
    d.Joined s := by
  obtain ⟨-, f, hf⟩ := h.1
  obtain ⟨v, y, hv, hsize, hjoined, -⟩ := h.2
  obtain ⟨w, hsplit, hcd, hstop⟩ := passes_of_token? ht
  obtain ⟨hline, hcode⟩ := hw w hsplit hcd
  obtain ⟨u, g, hs, hu, hpos, hg⟩ := hf.exists_gap (skipGap_of_token? hp ht)
  obtain ⟨rfl, -⟩ := append_inj_of_size (hs.symm.trans hv) (hu.trans hsize.symm)
  have hnoise : Text.Joined g := by
    obtain ⟨x, w', rfl⟩ := List.exists_cons_of_ne_nil hcode.ne_nil
    exact joined_of_noise hg ⟨x, by rw [hcd.rest]; rfl, hline.head x rfl⟩
  refine ⟨(invariant_endsAt s).token trivial h.1 ht, u ++ g ++ w, d.rest, ?_, ?_,
    (hjoined.append hnoise).append hline, .inr (hcode.append (u ++ g))⟩
  · rw [hs, hcd.rest, List.append_assoc, List.append_assoc]
  · rw [hstop, hcd.pos, hpos, size_append (u ++ g)]

/-- Every lexeme of the grammar is a string, or is free of noise, quotes and line breaks. -/
theorem Rule.isFreeOf_or_string {r : Rule} {p : Pattern} (hp : p ∈ r.production.lexemes) :
    p.isClear ∧ (p.isFreeOf (Pattern.marks ++ ['\n', '\r']) ∨
      r = .string ∧ r.production = .lexeme .quotation) := by
  have h : ∀ p ∈ r.production.lexemes, p.isClear ∧
      (p.isFreeOf (Pattern.marks ++ ['\n', '\r']) ∨ r = .string) := by cases r <;> decide
  obtain ⟨hclear, hfree | rfl⟩ := h p hp
  · exact ⟨hclear, .inl hfree⟩
  · exact ⟨hclear, .inr ⟨rfl, rfl⟩⟩

/-- What a lexeme takes that is no string is joined. -/
theorem Text.joined_of_isFreeOf {p : Pattern} (hp : p.isClear)
    (hf : p.isFreeOf (Pattern.marks ++ ['\n', '\r'])) {s w r : Text}
    (h : p.split? s = some (w, r)) : Joined w ∧ w.EndsCode := by
  have hfree := Pattern.notMem_of_isFreeOf hf h
  have hne := Pattern.ne_nil_of_consumes (Pattern.consumes_of_isClear hp) h
  refine ⟨.of_plain fun c hc hm => hfree c hc ?_, w.getLast hne,
    List.getLast?_eq_some_getLast hne, fun hm => hfree _ (List.getLast_mem hne) ?_⟩
  · have hsub : lineMarks ⊆ Pattern.marks ++ ['\n', '\r'] := by decide
    exact hsub hm
  · have hsub : Pattern.noiseMarks ++ ['\n', '\r'] ⊆ Pattern.marks ++ ['\n', '\r'] := by decide
    exact hsub hm

theorem Text.joined_of_quotation {s w r : Text} (h : Pattern.quotation.split? s = some (w, r))
    (hl : '\n' ∉ w) : Joined w ∧ w.EndsCode := by
  obtain ⟨q, b, hq, hb, rfl⟩ := Pattern.exists_of_split?_quotation h
  have hfeed : '\n' ∉ b := fun hm => hl (by simp [hm])
  have hnot : q ∉ Pattern.noiseMarks ++ ['\n', '\r'] :=
    Pattern.notMem_of_holds (k := .oneOf Pattern.quotes) (by decide)
      (List.contains_iff_mem.mpr hq)
  exact ⟨.quotation hq hb hfeed .nil, q, by simp [List.getLast?_cons], hnot⟩

/-- A derivation keeps an invariant, also where a rule is a lexeme that keeps it only if the node
that the rule leaves has the property `P`. -/
theorem Derives.keeps {L : Pattern → Prop} {Q : Cursor → Prop} {P : Tree → Prop}
    (hQ : Cursor.Invariant L Q)
    (hnode : ∀ {r : Rule} {p c d}, r.production = .lexeme p → P ⟨r, ⟨c.pos, d.stop⟩, []⟩ →
      Q c → c.token? p = some d → Q d)
    (hL : ∀ r : Rule, ∀ p ∈ r.production.lexemes, r.production ≠ .lexeme p → L p)
    {skip : Cursor → Cursor} {a : Phrase} {c d : Cursor} {ts : List Tree}
    (h : Derives skip a c ts d) (hs : Spacing skip) (hp : ∀ p ∈ a.lexemes, L p)
    (hts : ∀ t ∈ ts, ∀ n ∈ t.nodes, P n) (hc : Q c) : Q d := by
  have hchildren : ∀ {t : Tree}, (∀ u ∈ [t], ∀ n ∈ u.nodes, P n) →
      ∀ u ∈ t.children, ∀ n ∈ u.nodes, P n := fun hts u hu n hn =>
    hts _ (List.mem_singleton_self _) n (Tree.mem_nodes_iff.mpr (.inr ⟨u, hu, hn⟩))
  induction h with
  | token h => exact hQ.token (hp _ (List.mem_singleton_self _)) hc h
  | absent | never => exact hc
  | lexeme hr h =>
    exact hnode hr (hts _ (List.mem_singleton_self _) _ (Tree.self_mem_nodes _)) hc h
  | @compact _ r _ _ _ _ hr h ih | @spaced _ r _ _ _ _ hr h ih =>
    exact ih (by constructor) (fun p hp => hL r p (by rw [hr]; exact hp) (by rw [hr]; simp))
      (hchildren hts) hc
  | seq _ _ iha ihb =>
    simp only [Phrase.lexemes, List.mem_append] at hp
    have hd := iha hs (fun p h => hp p (.inl h))
      (fun t ht => hts t (List.mem_append_left _ ht)) hc
    exact ihb hs (fun p h => hp p (.inr h))
      (fun t ht => hts t (List.mem_append_right _ ht)) (hQ.skip hs hd)
  | left _ ih => exact ih hs (fun p h => hp p (List.mem_append_left _ h)) hts hc
  | right _ ih => exact ih hs (fun p h => hp p (List.mem_append_right _ h)) hts hc
  | present _ ih | once _ ih => exact ih hs hp hts hc
  | again _ _ ihm iha =>
    have hd := ihm hs hp (fun t ht => hts t (List.mem_append_left _ ht)) hc
    exact iha hs hp (fun t ht => hts t (List.mem_append_right _ ht)) (hQ.skip hs hd)

/-- What a parse has matched is joined, if its strings are each on one line. -/
theorem joinedTo_of_parse {s : Text} {r : Rule} {o : Options} {t : Tree} (h : parse s r o = .ok t)
    (hl : ∀ n ∈ t.nodes, n.rule = .string → '\n' ∉ n.text s) : s.JoinedTo t.span.stop := by
  obtain ⟨d, ts, -, rfl, hd⟩ := derives_of_parse h
  have hcall : Derives id (.call r) (.start s 0) [⟨r, ⟨0, d.stop⟩, ts⟩] d :=
    derives_call_iff.mpr ⟨ts, rfl, hd⟩
  have hQ : Cursor.Invariant (fun p => p.isClear ∧ p.isFreeOf (Pattern.marks ++ ['\n', '\r']))
      (Cursor.Joined s) :=
    ⟨fun hp hc ht => hc.token hp.1 ht fun w hw _ => joined_of_isFreeOf hp.1 hp.2 hw,
      fun hc => ⟨(Cursor.invariant_endsAt s).gap hc.1, by rw [Cursor.stop_skipGap]; exact hc.2⟩⟩
  have hstart : (Cursor.start s 0).Joined s :=
    ⟨Cursor.endsAt_start s, [], s, rfl, rfl, .nil, .inl rfl⟩
  refine (hcall.keeps (P := fun n => n.rule = .string → '\n' ∉ n.text s) hQ ?_ ?_ .compact
    (by simp [Phrase.lexemes]) (List.forall_mem_singleton.mpr hl) hstart).2
  · intro r p c d hr hn hc ht
    obtain ⟨hclear, hfree | ⟨rfl, hstring⟩⟩ :=
      Rule.isFreeOf_or_string (r := r) (p := p) (by rw [hr]; exact List.mem_singleton_self p)
    · exact hQ.token ⟨hclear, hfree⟩ hc ht
    · refine hc.token hclear ht fun w hw hcd => ?_
      rw [hr, Production.lexeme.injEq] at hstring
      rw [hstring] at hw
      refine joined_of_quotation hw ?_
      obtain ⟨-, -, -, hstop⟩ := Cursor.passes_of_token? ht
      have htext := hn rfl
      rwa [Tree.text, Span.text, hstop, hc.1.1.slice? hcd, Option.getD_some] at htext
  · intro r p hp hne
    obtain ⟨hclear, hfree | ⟨rfl, hstring⟩⟩ := Rule.isFreeOf_or_string hp
    · exact ⟨hclear, hfree⟩
    · rw [hstring] at hp hne
      exact absurd (List.mem_singleton.mp hp ▸ rfl) hne

/-! ## The first line of a source -/

/-- Where neither a blank nor a digit stands in front, a statement starts with its line. -/
theorem LogicalLine.statementStart_of_head {l : LogicalLine}
    (h : ∀ c ∈ l.text.head?, ¬CharClass.blank.holds c ∧ ¬c.isDigit) :
    l.statementStart = l.span.start := by
  unfold statementStart
  cases hl : l.text with
  | nil => rfl
  | cons c w =>
    obtain ⟨hblank, hdigit⟩ := h c (by rw [hl]; rfl)
    simp [List.takeWhile_cons_of_neg hblank, List.dropWhile_cons_of_neg hblank,
      List.takeWhile_cons_of_neg hdigit]

/-- What begins with no noise begins with no blank and no comment. -/
theorem Text.head_of_skipNoise {w : Text} (h : skipNoise w 0 = 0) :
    ∀ c ∈ w.head?, ¬CharClass.blank.holds c ∧ c ≠ '!' := by
  have hnone : Pattern.noise.split? w = some ([], w) :=
    split?_noise_of_skipNoise (u := []) (x := []) h
  obtain ⟨hwhite, hcomment⟩ := Pattern.split?_eq_none_of_noise hnone
  cases w with
  | nil => simp
  | cons c w =>
    rintro d ⟨rfl⟩
    refine ⟨fun hblank => ?_, fun hmark => ?_⟩
    · simp [Pattern.whitespace, Pattern.split?, hblank] at hwhite
    · simp [Pattern.comment, Pattern.split?, Pattern.splitWord?, hmark] at hcomment

/-- **Continuations end for the scan where they end for the grammar.**  If a text is as a whole a
match of a rule, and begins neither with noise nor with a digit, its strings are each on one line,
and each of its carriage returns is directly followed by a line feed, then in front of a line feed,
whatever follows, the text is the first logical line, and the match the first hit. -/
theorem first_line_of_parse {w : Text} {r : Rule} {o : Options} {t : Tree}
    (h : parse w r o = .ok t) (hall : t.span = ⟨0, size w⟩) (hnoise : skipNoise w 0 = 0)
    (hdigit : ∀ c ∈ w.head?, ¬c.isDigit)
    (hline : ∀ n ∈ t.nodes, n.rule = .string → '\n' ∉ n.text w) (hr : w.pairsReturns) (s : Text) :
    (logicalLines (w ++ '\n' :: s)).head? = some ⟨⟨0, size w⟩, w⟩ ∧
      (locate (w ++ '\n' :: s) r o).head? = some t := by
  have hlt := (grownIn_of_parse h t t.self_mem_nodes).wellSpanned.start_lt_stop
  have hhead := head_of_skipNoise hnoise
  obtain ⟨u, y, hs, hu, hjoined, hcode⟩ := joinedTo_of_parse h hline
  rw [hall] at hlt hu
  dsimp only at hlt hu
  -- what has been matched is the whole text
  obtain ⟨rfl, -⟩ := append_inj_of_size ((List.append_nil w).trans hs) hu.symm
  have hne : w ≠ [] := by
    rintro rfl
    exact absurd hlt (Nat.lt_irrefl 0)
  have hfirst := head?_logicalLines hjoined hr (hcode.resolve_left hne) s
  refine ⟨hfirst, ?_⟩
  obtain ⟨ls, hls⟩ := List.head?_eq_some_iff.mp hfirst
  have hstart : LogicalLine.statementStart ⟨⟨0, size w⟩, w⟩ = 0 :=
    LogicalLine.statementStart_of_head fun c hc => ⟨(hhead c hc).1, hdigit c hc⟩
  have hcomment : ¬startsComment (w ++ '\n' :: s) 0 := by
    obtain ⟨c, v, rfl⟩ := List.exists_cons_of_ne_nil hne
    simp [startsComment, dropBytes?, (hhead c rfl).2]
  have hparse : parseRange (w ++ '\n' :: s) ⟨0, size w⟩ r o = .ok t := by
    obtain ⟨hdepth, d, hfound, -⟩ := parse_eq_ok_iff.mp h
    refine parseRange_eq_ok_iff.mpr
      ⟨w, d, slice?_zero_append w _, hdepth, hfound, fun _ => ?_⟩
    rw [hall]
    exact le_skipTrailing _ _
  have hhit : locateOn? (w ++ '\n' :: s) r o ⟨⟨0, size w⟩, w⟩ = some t := by
    refine locateOn?_eq_some_iff.mpr ?_
    rw [hstart]
    exact ⟨hlt, hcomment, hparse⟩
  rw [locate, hls, List.filterMap_cons_some hhit]
  rfl

/-- A call over three lines: marks in a string, a comment with a quote and a mark in front of a
carriage return, and a line without code. -/
theorem first_line_of_parse_of_call :
    let w : Text := ['f', '(', '\'', '!', '&', '\'', ',', ' ', '&', '!', '\'', '&', '\r', '\n',
      '\t', '\n', '&', 'x', ')']
    let s : Text := ['g', '(', ')', ' ', '&', '\n']
    let t : Tree := ⟨.functionCall, ⟨0, 19⟩, [⟨.name, ⟨0, 1⟩, []⟩, ⟨.arguments, ⟨2, 18⟩,
      [⟨.argument, ⟨2, 6⟩, [⟨.valueReturningCode, ⟨2, 6⟩, [⟨.atomicValue, ⟨2, 6⟩,
        [⟨.string, ⟨2, 6⟩, []⟩]⟩]⟩]⟩, ⟨.argument, ⟨17, 18⟩, [⟨.valueReturningCode, ⟨17, 18⟩,
          [⟨.accessedVariable, ⟨17, 18⟩, [⟨.name, ⟨17, 18⟩, []⟩]⟩]⟩]⟩]⟩]⟩
    parse w .functionCall {} = .ok t ∧
      (logicalLines (w ++ '\n' :: s)).head? = some ⟨⟨0, 19⟩, w⟩ ∧
      (locate (w ++ '\n' :: s) .functionCall {}).head? = some t := by
  intro w s t
  have ht : parse w .functionCall {} = .ok t := by decide +kernel
  have hsize : size w = 19 := by decide
  have hall : t.span = ⟨0, size w⟩ := by rw [hsize]
  have hnoise : skipNoise w 0 = 0 := by decide
  have hdigit : ∀ c ∈ w.head?, ¬c.isDigit := by
    rintro c ⟨rfl⟩
    decide
  have hline : ∀ n ∈ t.nodes, n.rule = .string → '\n' ∉ n.text w := by decide +kernel
  have hreturns : w.pairsReturns := by decide
  have hfirst := first_line_of_parse ht hall hnoise hdigit hline hreturns s
  rw [hsize] at hfirst
  exact ⟨ht, hfirst⟩

end FreeForm

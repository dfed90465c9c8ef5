import CwDb.Sql.Literal

/-! Scanning what is put after a text.

A piece of the scanner's ends where no rule can go on. So a text keeps its pieces when
something else is put after it, as long as that starts with a character no piece but
white space and comments goes on with (`Breaks`), and the last piece is not one of
those (`Closed`): the two texts scan one after the other (`lexes_glue`). -/
namespace CwDb.Sql
open Foundation Foundation.LongestMatch

/-- No name, number or operator goes on with the character. -/
def Breaks (c : UInt8) : Prop := isWordChar c = false ∧ c ≠ byte '='

/-- What follows does not go on with the last piece. -/
def Closed (last : Lexeme) (rest : Str) : Prop :=
  match last.1 with
  | .blank => ∀ c, rest.head? = some c → c ≠ byte ' ' ∧ c ≠ tab
  | .lineComment => ∀ c, rest.head? = some c → c = newline
  | .other => rest.head? ≠ some newline
  | _ => True

/-- A piece that is no error, or a white character the scanner does not know. -/
def Settled (l : Lexeme) : Prop :=
  (∀ e, action l ≠ .error e) ∨ ∃ c, l = (.other, [c]) ∧ isSpace c = true

/-- How a piece could go on over the end of a text: white space, or what a comment or
a string starts with. -/
theorem spelled_over {rule : LexRule} {u x : Str} (h : Spelled rule (u ++ x)) (hu : u ≠ [])
    {c : UInt8} (hc : x.head? = some c) (hbreak : Breaks c) :
    (Spelled .blank u ∧ (c = byte ' ' ∨ c = tab)) ∨
    (u = [carriageReturn] ∧ c = newline) ∨
    (u = [dash] ∨ Spelled .lineComment u ∧ c ≠ newline) ∨
    (rule = .blockComment ∧ u.head? = some slash) ∨
    u.head? = some quote := by
  obtain ⟨x, rfl⟩ : ∃ y, x = c :: y := by
    cases x with
    | nil => exact absurd hc nofun
    | cons d y => exact ⟨y, by rw [Option.some.inj hc]⟩
  obtain ⟨d, u, rfl⟩ := List.exists_cons_of_ne_nil hu
  cases rule with
  | blank =>
    refine .inl ⟨⟨List.cons_ne_nil d u, fun e he => h.2 e (List.mem_append_left _ he)⟩, ?_⟩
    exact h.2 c (by simp)
  | newline =>
    rcases h with h | h
    · exact absurd (congrArg List.length h) (by simp)
    · have hlength := congrArg List.length h
      simp only [List.length_append, List.length_cons, List.length_nil] at hlength
      obtain rfl : u = [] := List.length_eq_zero_iff.mp (by omega)
      rw [List.singleton_append, List.cons.injEq, List.cons.injEq] at h
      exact .inr (.inl ⟨by rw [h.1], h.2.1⟩)
  | lineComment =>
    obtain ⟨b, hb, hline⟩ := h
    refine .inr (.inr (.inl ?_))
    cases u with
    | nil => exact .inl (by rw [(List.cons.inj hb).1])
    | cons e u =>
      rw [List.cons_append, List.cons_append, List.cons.injEq, List.cons.injEq] at hb
      obtain ⟨rfl, rfl, rfl⟩ := hb
      refine .inr ⟨⟨u, rfl, fun hin => hline (List.mem_append_left _ hin)⟩, ?_⟩
      rintro rfl
      exact hline (by simp)
  | blockComment =>
    obtain ⟨b, hb, -⟩ := h
    exact .inr (.inr (.inr (.inl ⟨rfl, congrArg some (List.cons.inj hb).1⟩)))
  | string | unterminated =>
    obtain ⟨b, hb, -⟩ := h
    exact .inr (.inr (.inr (.inr (congrArg some (List.cons.inj hb).1))))
  | int =>
    have hdigit : isDigit c = true := by
      obtain ⟨a, as, hb | hb, hall⟩ := h
      · exact hall c (hb ▸ by simp)
      · exact hall c ((List.cons.inj hb).2 ▸ by simp)
    have hword : isWordChar c = true := by simp [isWordChar, hdigit]
    rw [hbreak.1] at hword
    exact absurd hword nofun
  | word =>
    obtain ⟨a, as, hb, -, hall⟩ := h
    have hword : isWordChar c = true := hall c ((List.cons.inj hb).2 ▸ by simp)
    rw [hbreak.1] at hword
    exact absurd hword nofun
  | op spelling =>
    have hsecond : ∀ op ∈ opSpellings.map Str.ofString, op.tail = [] ∨ op.tail = [byte '='] := by
      decide
    rcases hsecond _ h.2 with hnil | hnil
    · exact absurd hnil (by simp)
    · have hlength := congrArg List.length hnil
      simp only [List.cons_append, List.tail_cons, List.length_append, List.length_cons,
        List.length_nil] at hlength
      obtain rfl : u = [] := List.length_eq_zero_iff.mp (by omega)
      exact absurd (List.cons.inj hnil).1 hbreak.2
  | other =>
    obtain ⟨e, -, he⟩ := h
    exact absurd (congrArg List.length he) (by simp)

/-- A block comment ends where it ends. -/
theorem not_spelled_blockComment_append {w x : Str} (hw : Spelled .blockComment w) (hx : x ≠ []) :
    ¬ Spelled .blockComment (w ++ x) := by
  rintro ⟨b', hb', hskip'⟩
  obtain ⟨b, rfl, hskip⟩ := hw
  rw [List.cons_append, List.cons_append, List.cons.injEq, List.cons.injEq] at hb'
  have hend := hskip' []
  rw [List.append_nil, ← hb'.2.2, hskip] at hend
  exact hx (Option.some.inj hend)

theorem ruleFor_blank {w : Str} (h : Spelled .blank w) : ruleFor sqlRules w = some .blank := by
  have hmem : (LexRule.blank, (plus (oneOf fun c => c = byte ' ' || c = tab) : Regexp)) ∈ sqlRules :=
    List.mem_append_left _ (List.mem_append_left _ (.head _))
  obtain ⟨hne, hall⟩ := h
  obtain ⟨c, w, rfl⟩ := List.exists_cons_of_ne_nil hne
  have hall' : ∀ d ∈ c :: w, (d = byte ' ' || d = tab : Bool) = true := fun d hd => by
    simpa using hall d hd
  refine ruleFor_eq hmem (mem_mul.mpr ⟨[c], ?_, w, ?_, rfl⟩) nofun
  · exact mem_oneOf.mpr ⟨c, hall' c List.mem_cons_self, rfl⟩
  · exact mem_star_oneOf fun d hd => hall' d (List.mem_cons_of_mem _ hd)

/-- Only the rule for block comments, and the last one, take a piece that starts with a
slash. -/
theorem rule_of_slash {rule : LexRule} {w : Str} (h : Spelled rule (slash :: w)) :
    rule = .blockComment ∨ rule = .other := by
  by_cases hr : rule = .other
  · exact .inr hr
  · obtain ⟨c, v, heq, hc⟩ := h.starts hr
    rw [← (List.cons.inj heq).1, ← starts_tag] at hc
    have hall : ∀ a ∈ tags, starts a slash = true → a = .blockComment := by decide
    exact (eq_of_tag (show rule.tag = LexRule.tag .blockComment from hall _ (tag_mem hr) hc)).elim
      .inl fun ⟨_, _, _, h⟩ => absurd h nofun

section Over
variable {u v : Str} {rule : LexRule} {n : Nat} (h : munch sqlRules (u ++ v) = some (rule, n))
  (hn : n ≤ u.length)
include h hn

theorem ruleFor_take : ruleFor sqlRules (u.take n) = some rule := by
  have hrule := (longest_some.mp h).2.2.1
  rwa [List.take_append_of_le_length hn] at hrule

/-- A rule that takes the whole of the first text has its piece. -/
theorem eq_of_ruleFor {rule' : LexRule} (hu : ruleFor sqlRules u = some rule') :
    n = u.length ∧ rule = rule' := by
  have heq : n = u.length := by
    by_contra hne
    have hnone := (longest_some.mp h).2.2.2 u.length (by omega) (by simp)
    rw [List.take_left' rfl, hu] at hnone
    cases hnone
  have hrule := ruleFor_take h hn
  rw [heq, List.take_length, hu] at hrule
  exact ⟨heq, (Option.some.inj hrule).symm⟩

/-- No rule takes a piece over the end of the first text. -/
theorem not_spelled_over (hsettled : Settled (rule, u.take n)) {x : Str} {c : UInt8}
    (hc : x.head? = some c) (hbreak : Breaks c) (hclosed : n = u.length → Closed (rule, u) x)
    (rule' : LexRule) : ¬ Spelled rule' (u ++ x) := by
  intro hover
  have hpos := (longest_some.mp h).1
  have hu : u ≠ [] := by
    rintro rfl
    exact absurd (hpos.trans_le hn) (lt_irrefl _)
  have hx : x ≠ [] := by
    rintro rfl
    cases hc
  have htake := spelled_of_ruleFor (ruleFor_take h hn)
  have hsplit : u ++ x = u.take n ++ (u.drop n ++ x) := by
    rw [← List.append_assoc, List.take_append_drop]
  have hrest : u.drop n ++ x ≠ [] := List.append_ne_nil_of_right_ne_nil _ hx
  -- a single character that is an error cannot be settled
  have hsingle : ∀ d, u.take n = [d] → isSpace d = false → rule ≠ .other := by
    rintro d hd hspace rfl
    rcases hsettled with hok | ⟨e, he, hespace⟩
    · exact hok _ rfl
    · rw [hd] at he
      rw [← List.singleton_inj.mp (Prod.mk.inj he).2, hspace] at hespace
      exact Bool.false_ne_true hespace
  rcases spelled_over hover hu hc hbreak with ⟨hblank, hcblank⟩ | ⟨rfl, rfl⟩ | hline | ⟨rfl, hslash⟩ |
    hquote
  · obtain ⟨hlen, rfl⟩ := eq_of_ruleFor h hn (ruleFor_blank hblank)
    have hnot := hclosed hlen c hc
    exact hcblank.elim hnot.1 hnot.2
  · have hother : ruleFor sqlRules [carriageReturn] = some .other := by decide +kernel
    obtain ⟨hlen, rfl⟩ := eq_of_ruleFor h hn hother
    exact hclosed hlen hc
  · rcases hline with rfl | ⟨hcomment, hcne⟩
    · have hother : ruleFor sqlRules [dash] = some .other := by decide +kernel
      obtain ⟨hlen, rfl⟩ := eq_of_ruleFor h hn hother
      exact hsingle dash (by rw [hlen]; rfl) (by decide) rfl
    · obtain ⟨hlen, rfl⟩ := eq_of_ruleFor h hn (ruleFor_lineComment hcomment)
      exact hcne (hclosed hlen c hc)
  · obtain ⟨w, hw⟩ : ∃ w, u.take n = slash :: w := by
      obtain ⟨d, u, rfl⟩ := List.exists_cons_of_ne_nil hu
      obtain ⟨m, rfl⟩ := Nat.exists_eq_succ_of_ne_zero hpos.ne'
      exact ⟨u.take m, by rw [List.take_succ_cons, Option.some.inj hslash]⟩
    rcases rule_of_slash (hw ▸ htake) with rfl | rfl
    · exact not_spelled_blockComment_append htake hrest (hsplit ▸ hover)
    · obtain ⟨d, -, hd⟩ := htake
      rw [hw] at hd
      exact hsingle slash (by rw [hw, (List.cons.inj hd).2]) (by decide) rfl
  · obtain ⟨w, hw⟩ : ∃ w, u.take n = quote :: w := by
      obtain ⟨d, u, rfl⟩ := List.exists_cons_of_ne_nil hu
      obtain ⟨m, rfl⟩ := Nat.exists_eq_succ_of_ne_zero hpos.ne'
      exact ⟨u.take m, by rw [List.take_succ_cons, Option.some.inj hquote]⟩
    rcases rule_of_quote (hw ▸ htake) with rfl | rfl | rfl
    · exact not_spelled_string_append htake hrest (hsplit ▸ hover)
    · rcases hsettled with hok | ⟨e, he, -⟩
      · exact hok _ rfl
      · cases he
    · obtain ⟨d, -, hd⟩ := htake
      rw [hw] at hd
      exact hsingle quote (by rw [hw, (List.cons.inj hd).2]) (by decide) rfl

end Over

/-- The first piece stays when something else is put after a text. -/
theorem munch_glue {u v : Str} {rule : LexRule} {n : Nat}
    (h : munch sqlRules (u ++ v) = some (rule, n)) (hn : n ≤ u.length)
    (hsettled : Settled (rule, u.take n)) {rest : Str}
    (hbreak : ∀ c, rest.head? = some c → Breaks c)
    (hclosed : n = u.length → Closed (rule, u) rest) :
    munch sqlRules (u ++ rest) = some (rule, n) := by
  refine longest_some.mpr ⟨(longest_some.mp h).1, ?_, ?_, fun k hk hle => ?_⟩
  · rw [List.length_append]
    omega
  · rw [List.take_append_of_le_length hn]
    exact ruleFor_take h hn
  · by_cases hku : k ≤ u.length
    · have hnone := (longest_some.mp h).2.2.2 k hk (by rw [List.length_append]; omega)
      rwa [List.take_append_of_le_length hku] at hnone ⊢
    · by_contra hsome
      obtain ⟨rule', hrule⟩ := Option.ne_none_iff_exists'.mp hsome
      rw [List.take_append, List.take_of_length_le (by omega)] at hrule
      cases rest with
      | nil =>
        rw [List.append_nil] at hle
        exact hku hle
      | cons c rest =>
        obtain ⟨m, hm⟩ := Nat.exists_eq_succ_of_ne_zero (Nat.sub_ne_zero_of_lt (not_le.mp hku))
        rw [hm, List.take_succ_cons] at hrule
        refine not_spelled_over h hn hsettled (x := c :: rest.take m) rfl (hbreak c rfl) ?_ rule'
          (spelled_of_ruleFor hrule)
        intro heq
        exact hclosed heq

theorem piece_ne_nil {text : Str} {l : Lexeme} {ls : List Lexeme}
    (h : Lexes sqlRules text (l :: ls)) : l.2 ≠ [] := by
  cases h with
  | cons hmunch _ =>
    obtain ⟨hpos, hle, -⟩ := longest_some.mp hmunch
    exact List.ne_nil_of_length_pos (by rw [List.length_take_of_le hle]; exact hpos)

/-- Two texts scan one after the other, if the first is only put before another text
than it was. -/
theorem lexes_glue {rest : Str} {rs : List Lexeme} (hrest : Lexes sqlRules rest rs)
    (hbreak : ∀ c, rest.head? = some c → Breaks c) :
    ∀ {ps : List Lexeme} {v : Str} {qs : List Lexeme}, Lexes sqlRules (cover ps ++ v) (ps ++ qs) →
      (∀ p ∈ ps, Settled p) → (∀ p, ps.getLast? = some p → Closed p rest) →
      Lexes sqlRules (cover ps ++ rest) (ps ++ rs)
  | [], _, _, _, _, _ => hrest
  | p :: ps, v, qs, h, hsettled, hclosed => by
    generalize htext : cover (p :: ps) ++ v = text at h
    cases h with
    | @cons _ rule n _ hmunch hlexes =>
      have hle := (longest_some.mp hmunch).2.1
      have hw : (text.take n).length = n := List.length_take_of_le hle
      rw [cover_cons] at htext ⊢
      dsimp only at htext ⊢
      have htake : (text.take n ++ cover ps).take n = text.take n := List.take_left' hw
      have hdrop : text.drop n = cover ps ++ v := by
        conv_lhs => rw [← htext, List.append_assoc, List.drop_left' hw]
      have hglue : munch sqlRules (text.take n ++ cover ps ++ rest) = some (rule, n) := by
        refine munch_glue (htext ▸ hmunch) (by rw [List.length_append]; omega) ?_ hbreak fun hend => ?_
        · rw [htake]
          exact hsettled _ List.mem_cons_self
        · rw [List.length_append, hw] at hend
          cases ps with
          | nil => simpa using hclosed _ rfl
          | cons q ps =>
            have hempty : q.2 = [] := by
              rw [cover_cons, List.length_append] at hend
              exact List.length_eq_zero_iff.mp (by omega)
            have hnext : Lexes sqlRules (text.drop n) (q :: (ps ++ qs)) := hlexes
            exact absurd hempty (piece_ne_nil hnext)
      have hrec := lexes_glue hrest hbreak (hdrop ▸ hlexes)
        (fun q hq => hsettled q (List.mem_cons_of_mem _ hq)) fun q hq => hclosed q (by
          rw [List.getLast?_cons, hq]
          rfl)
      have hcons := Lexes.cons hglue (by
        rw [List.append_assoc, List.drop_left' hw]
        exact hrec)
      rwa [List.append_assoc, List.take_left' hw, ← List.append_assoc] at hcons

/-! ### Single pieces -/

theorem lexes_spelled {text : Str} {ls : List Lexeme} (h : Lexes sqlRules text ls) :
    ∀ l ∈ ls, Spelled l.1 l.2 := by
  induction h with
  | nil => exact nofun
  | cons hmunch _ ih =>
    refine List.forall_mem_cons.mpr ⟨?_, ih⟩
    exact spelled_of_ruleFor (longest_some.mp hmunch).2.2.1

/-- The scanner never jams. -/
theorem exists_sqlLexes (text : Str) : ∃ ls, Lexes sqlRules text ls := by
  refine exists_lexes (fun c => ?_) text
  by_cases hc : c = newline
  · have hnewline : ruleFor sqlRules [newline] ≠ none := by decide +kernel
    rwa [hc]
  · have hother : (LexRule.other, (oneOf fun c => c ≠ newline : Regexp)) ∈ sqlRules :=
      List.mem_append_right _ (.head _)
    exact ruleFor_ne_none hother (mem_oneOf.mpr ⟨c, decide_eq_true hc, rfl⟩)

/-- A text that is one piece. -/
theorem lexes_single {w : Str} {rule : LexRule} (hw : w ≠ []) (h : ruleFor sqlRules w = some rule) :
    Lexes sqlRules w [(rule, w)] := by
  have hmunch : munch sqlRules w = some (rule, w.length) :=
    longest_some.mpr ⟨List.length_pos_iff.mpr hw, le_rfl, (congrArg _ List.take_length).trans h,
      fun k hk hle => absurd hk (not_lt.mpr hle)⟩
  have hcons := Lexes.cons hmunch (by rw [List.drop_length]; exact .nil)
  rwa [List.take_length] at hcons

theorem lexes_semicolon : Lexes sqlRules [semicolon] [semiLexeme] :=
  lexes_single (List.cons_ne_nil _ _) (by decide +kernel)

theorem skipComment_append : ∀ {a r : Str} (x : Str), skipComment a = some r →
    skipComment (a ++ x) = some (r ++ x)
  | [], _, _, h => absurd h nofun
  | [_], _, _, h => absurd h nofun
  | c :: d :: a, r, x, h => by
    rw [skipComment] at h
    rw [List.cons_append, List.cons_append, skipComment]
    by_cases hend : c = asterisk ∧ d = slash
    · rw [if_pos hend] at h ⊢
      rw [Option.some.inj h]
    · rw [if_neg hend] at h ⊢
      exact skipComment_append x h

/-- A block comment ends in a slash. -/
theorem skipComment_last : ∀ {a r : Str}, skipComment a = some r →
    ∃ b, a = b ++ slash :: r
  | [], _, h => absurd h nofun
  | [_], _, h => absurd h nofun
  | c :: d :: a, r, h => by
    rw [skipComment] at h
    by_cases hend : c = asterisk ∧ d = slash
    · rw [if_pos hend] at h
      exact ⟨[c], by rw [hend.2, Option.some.inj h]; rfl⟩
    · rw [if_neg hend] at h
      obtain ⟨b, hb⟩ := skipComment_last h
      exact ⟨c :: b, by rw [hb]; rfl⟩

/-- What starts like a block comment and has no end is an error at the slash. -/
theorem lexes_unclosed {b : Str} (hb : skipComment b = none) :
    ∃ ls, Lexes sqlRules (slash :: asterisk :: b) ((.other, [slash]) :: ls) := by
  have hmunch : munch sqlRules (slash :: asterisk :: b) = some (.other, 1) := by
    have hother : ruleFor sqlRules [slash] = some .other := by decide +kernel
    refine longest_some.mpr ⟨Nat.zero_lt_one, by simp, hother, fun k hk hle => ?_⟩
    by_contra hsome
    obtain ⟨rule, hrule⟩ := Option.ne_none_iff_exists'.mp hsome
    obtain ⟨m, rfl⟩ := Nat.exists_eq_add_of_le' hk
    rw [List.take_succ_cons, List.take_succ_cons] at hrule
    have hspelled := spelled_of_ruleFor hrule
    rcases rule_of_slash hspelled with rfl | rfl
    · obtain ⟨b', hb', hskip⟩ := hspelled
      rw [List.cons.injEq, List.cons.injEq] at hb'
      have hend := hskip (b.drop m)
      rw [← hb'.2.2, List.take_append_drop, hb] at hend
      cases hend
    · obtain ⟨c, -, hc⟩ := hspelled
      exact absurd (List.cons.inj hc).2 (List.cons_ne_nil _ _)
  obtain ⟨ls, hls⟩ := exists_sqlLexes (asterisk :: b)
  exact ⟨ls, .cons hmunch hls⟩

theorem tokens_append_ok {ls : List Lexeme} {ts : List Token} (h : tokens ls = .ok ts)
    (ms : List Lexeme) : tokens (ls ++ ms) = (tokens ms).map (ts ++ ·) := by
  induction ls generalizing ts with
  | nil =>
    cases h
    rw [List.nil_append]
    cases tokens ms <;> rfl
  | cons l ls ih =>
    obtain ⟨t, rest, ht, hrest, rfl⟩ := tokens_cons.mp h
    rw [List.cons_append, tokens, ht, ih hrest]
    cases tokens ms with
    | error e => rfl
    | ok us => exact congrArg Except.ok (List.append_assoc t.toList rest us).symm

theorem tokens_append_error {ls : List Lexeme} {e : Str} (h : tokens ls = .error e)
    (ms : List Lexeme) : tokens (ls ++ ms) = .error e := by
  induction ls with
  | nil => cases h
  | cons l ls ih =>
    rw [tokens] at h
    rw [List.cons_append, tokens]
    cases hl : action l with
    | error e' =>
      rw [hl] at h
      exact h
    | ok t =>
      rw [hl] at h
      cases hls : tokens ls with
      | error e' =>
        rw [hls] at h
        cases h
        rw [ih hls]
        rfl
      | ok ts =>
        rw [hls] at h
        cases h

end CwDb.Sql

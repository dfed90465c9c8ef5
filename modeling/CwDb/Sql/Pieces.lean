import CwDb.Sql.Lexer

/-! The pieces the scanner cuts.

`Spelled` says of each rule what a piece of it looks like, in terms of its
characters. The shapes exclude each other except that the last rule takes any single
character, so the rule of a piece can be told from its spelling (`ruleFor_eq`), and
a piece ends before a character that none of the shapes can go on with
(`Lexes.glue`). -/
namespace CwDb.Sql
open Foundation Foundation.LongestMatch

/-! ### The languages of the rules -/

theorem mem_allBytes (c : UInt8) : c ∈ allBytes := by
  refine List.mem_map.mpr ⟨c.toNat, List.mem_range.mpr c.toNat_lt, ?_⟩
  exact UInt8.ofNat_toNat

theorem mem_oneOf {p : UInt8 → Bool} {w : Str} :
    w ∈ (oneOf p).matches' ↔ ∃ c, p c = true ∧ w = [c] := mem_cls mem_allBytes

theorem mem_char {c : UInt8} {w : Str} : w ∈ (char c).matches' ↔ w = [c] := Iff.rfl

theorem mem_mul {r q : Regexp} {w : Str} :
    w ∈ (r * q).matches' ↔ ∃ u ∈ r.matches', ∃ v ∈ q.matches', u ++ v = w := by
  rw [RegularExpression.matches'_mul, Language.mem_mul]

theorem mem_add {r q : Regexp} {w : Str} :
    w ∈ (r + q).matches' ↔ w ∈ r.matches' ∨ w ∈ q.matches' := by
  rw [RegularExpression.matches'_add, Language.mem_add]

/-- Repetitions of a class have only its characters. -/
theorem all_of_mem_star {p : UInt8 → Bool} {w : Str} (h : w ∈ (oneOf p).star.matches') :
    ∀ c ∈ w, p c = true := by
  refine star_induction (motive := fun w => ∀ c ∈ w, p c = true) nofun ?_ h
  intro v w hv hw c hc
  obtain ⟨d, hd, rfl⟩ := mem_oneOf.mp hv
  rcases List.mem_cons.mp hc with rfl | hc
  · exact hd
  · exact hw c hc

theorem eq_of_mem_star {d : UInt8} {w : Str} (h : w ∈ (char d).star.matches') : ∀ c ∈ w, c = d := by
  refine star_induction (motive := fun w => ∀ c ∈ w, c = d) nofun ?_ h
  intro v w hv hw c hc
  rw [mem_char.mp hv] at hc
  rcases List.mem_cons.mp hc with rfl | hc
  · rfl
  · exact hw c hc

/-- One or more characters of a class. -/
theorem plus_oneOf {p : UInt8 → Bool} {w : Str} (h : w ∈ (plus (oneOf p)).matches') :
    ∃ c v, w = c :: v ∧ p c = true ∧ ∀ d ∈ w, p d = true := by
  obtain ⟨u, hu, v, hv, rfl⟩ := mem_mul.mp h
  obtain ⟨c, hc, rfl⟩ := mem_oneOf.mp hu
  refine ⟨c, v, rfl, hc, fun d hd => ?_⟩
  rcases List.mem_cons.mp hd with rfl | hd
  · exact hc
  · exact all_of_mem_star hv d hd

/-- One or more of one character, the last one apart. -/
theorem plus_char {d : UInt8} {w : Str} (h : w ∈ (plus (char d)).matches') :
    ∃ v, w = v ++ [d] ∧ ∀ c ∈ v, c = d := by
  obtain ⟨u, hu, v, hv, rfl⟩ := mem_mul.mp h
  rw [mem_char.mp hu]
  have hall := eq_of_mem_star hv
  rcases List.eq_nil_or_concat' v with rfl | ⟨init, last, rfl⟩
  · exact ⟨[], rfl, nofun⟩
  · have hlast : last = d := hall last (by simp)
    refine ⟨d :: init, by rw [hlast]; rfl, fun c hc => ?_⟩
    rcases List.mem_cons.mp hc with rfl | hc
    · rfl
    · exact hall c (List.mem_append_left _ hc)

/-- A spelling of the rules for fixed tokens. -/
theorem mem_opRules {rule : LexRule} {r : Regexp}
    (h : (rule, r) ∈ opSpellings.map fun op => (LexRule.op (Str.ofString op),
      (literal (Str.ofString op) : Regexp))) {w : Str} (hw : w ∈ r.matches') :
    rule = .op w ∧ w ∈ opSpellings.map Str.ofString := by
  obtain ⟨op, hop, heq⟩ := List.mem_map.mp h
  cases heq
  rw [mem_literal.mp hw]
  exact ⟨rfl, List.mem_map_of_mem hop⟩

/-! ### Spellings -/

def isWordStart (c : UInt8) : Bool := isUpper c || isLower c || c = byte '_'

def isWordChar (c : UInt8) : Bool := isUpper c || isLower c || isDigit c || c = byte '_'

/-- The characters between the quotes of a literal: no quote and no newline but after
a backslash a quote, and no backslash at the end. -/
def isBody : Str → Bool
  | [] => true
  | [c] => c ≠ quote && c ≠ backslash && c ≠ newline
  | c :: e :: rest =>
    if c = backslash then e ≠ newline && isBody rest
    else c ≠ quote && c ≠ newline && isBody (e :: rest)

/-- What follows the first end of a block comment. -/
def skipComment : Str → Option Str
  | [] => none
  | [_] => none
  | c :: d :: rest => if c = asterisk ∧ d = slash then some rest else skipComment (d :: rest)

/-- What the pieces of a rule look like. -/
def Spelled : LexRule → Str → Prop
  | .blank, w => w ≠ [] ∧ ∀ c ∈ w, c = byte ' ' ∨ c = tab
  | .newline, w => w = [newline] ∨ w = [carriageReturn, newline]
  | .lineComment, w => ∃ b, w = dash :: dash :: b ∧ newline ∉ b
  | .blockComment, w =>
    ∃ b, w = slash :: asterisk :: b ∧ ∀ rest, skipComment (b ++ rest) = some rest
  | .string, w => ∃ b, w = quote :: (b ++ [quote]) ∧ isBody b = true
  | .unterminated, w => ∃ b, w = quote :: b ∧ isBody b = true
  | .int, w => ∃ d ds, (w = d :: ds ∨ w = dash :: d :: ds) ∧ ∀ c ∈ d :: ds, isDigit c = true
  | .word, w => ∃ c cs, w = c :: cs ∧ isWordStart c = true ∧ ∀ d ∈ cs, isWordChar d = true
  | .op spelling, w => w = spelling ∧ w ∈ opSpellings.map Str.ofString
  | .other, w => ∃ c, c ≠ newline ∧ w = [c]

theorem isBody_cons {c : UInt8} {w : Str} (hc : c ≠ backslash) :
    isBody (c :: w) = (c ≠ quote && c ≠ newline && isBody w) := by
  cases w with
  | nil => simp [isBody, hc]
  | cons e w => simp [isBody, hc]

theorem isBody_escape {e : UInt8} {w : Str} :
    isBody (backslash :: e :: w) = (e ≠ newline && isBody w) := by
  simp [isBody]

theorem isBody_of_mem {w : Str} (h : w ∈ stringBody.matches') : isBody w = true := by
  refine star_induction (motive := fun w => isBody w = true) rfl ?_ h
  intro v w hv hw
  rcases mem_add.mp hv with hv | hv
  · obtain ⟨c, hc, rfl⟩ := mem_oneOf.mp hv
    simp only [Bool.and_eq_true, decide_eq_true_eq] at hc
    rw [List.singleton_append, isBody_cons hc.1.2]
    simp [hc, hw]
  · obtain ⟨u, hu, x, hx, rfl⟩ := mem_mul.mp hv
    obtain ⟨e, he, rfl⟩ := mem_oneOf.mp hx
    rw [mem_char.mp hu]
    simp only [List.cons_append, List.nil_append, isBody_escape]
    rw [he, hw]
    rfl

theorem mem_of_isBody : ∀ {w : Str}, isBody w = true → w ∈ stringBody.matches'
  | [], _ => Language.nil_mem_kstar _
  | [c], h => by
    refine star_cons (w := []) (mem_add.mpr (.inl (mem_oneOf.mpr ⟨c, ?_, rfl⟩)))
      (Language.nil_mem_kstar _)
    exact h
  | c :: e :: rest, h => by
    by_cases hc : c = backslash
    · subst hc
      rw [isBody_escape, Bool.and_eq_true] at h
      refine star_cons (v := [backslash, e]) (mem_add.mpr (.inr ?_)) (mem_of_isBody h.2)
      exact mem_mul.mpr ⟨[backslash], mem_char.mpr rfl, [e], mem_oneOf.mpr ⟨e, h.1, rfl⟩, rfl⟩
    · rw [isBody_cons hc, Bool.and_eq_true] at h
      refine star_cons (v := [c]) (mem_add.mpr (.inl (mem_oneOf.mpr ⟨c, ?_, rfl⟩)))
        (mem_of_isBody h.2)
      simpa [hc] using h.1

/-- No text goes on after the quote that ends it. -/
theorem isBody_append_quote : ∀ {b : Str} (x : Str), isBody b = true →
    isBody (b ++ quote :: x) = false
  | [], x, _ => by
    rw [List.nil_append, isBody_cons (by decide)]
    simp
  | [c], x, h => by
    simp only [isBody, Bool.and_eq_true, decide_eq_true_eq] at h
    rw [List.singleton_append, isBody_cons h.1.2, isBody_cons (by decide)]
    simp
  | c :: e :: rest, x, h => by
    by_cases hc : c = backslash
    · subst hc
      rw [isBody_escape, Bool.and_eq_true] at h
      rw [List.cons_append, List.cons_append, isBody_escape, isBody_append_quote x h.2, Bool.and_false]
    · rw [isBody_cons hc, Bool.and_eq_true] at h
      rw [List.cons_append, isBody_cons hc, isBody_append_quote x h.2, Bool.and_false]

theorem skipComment_cons {c : UInt8} {w : Str} (hc : c ≠ asterisk) :
    skipComment (c :: w) = skipComment w := by
  cases w with
  | nil => rfl
  | cons d w => simp [skipComment, hc]

/-- Stars that are not followed by a slash do not end a comment. -/
theorem skipComment_stars {v : Str} {d : UInt8} (hd : d ≠ slash) (hv : ∀ c ∈ v, c = asterisk)
    (rest : Str) : skipComment (v ++ d :: rest) = skipComment (d :: rest) := by
  induction v with
  | nil => rfl
  | cons c v ih =>
    have hv' : ∀ c ∈ v, c = asterisk := fun x hx => hv x (List.mem_cons_of_mem _ hx)
    rw [← ih hv']
    cases v with
    | nil => simp [skipComment, hd]
    | cons e v =>
      have hslash : asterisk ≠ slash := by decide
      simp [skipComment, hv' e List.mem_cons_self, hslash]

theorem skipComment_of_mem {w : Str}
    (h : w ∈ (oneOf (fun c => c ≠ asterisk) +
      plus (char asterisk) * oneOf fun c => c ≠ slash && c ≠ asterisk).star.matches') :
    ∀ rest, skipComment (w ++ rest) = skipComment rest := by
  refine star_induction (motive := fun w => ∀ rest, skipComment (w ++ rest) = skipComment rest)
    (fun _ => rfl) ?_ h
  intro v w hv hw rest
  rw [List.append_assoc, ← hw rest]
  rcases mem_add.mp hv with hv | hv
  · obtain ⟨c, hc, rfl⟩ := mem_oneOf.mp hv
    exact skipComment_cons (of_decide_eq_true hc)
  · obtain ⟨u, hu, x, hx, rfl⟩ := mem_mul.mp hv
    obtain ⟨stars, rfl, hstars⟩ := plus_char hu
    obtain ⟨d, hd, rfl⟩ := mem_oneOf.mp hx
    simp only [Bool.and_eq_true, decide_eq_true_eq] at hd
    have hall : ∀ c ∈ stars ++ [asterisk], c = asterisk := by
      intro c hc
      rcases List.mem_append.mp hc with hc | hc
      · exact hstars c hc
      · exact List.mem_singleton.mp hc
    rw [List.append_assoc, List.singleton_append, skipComment_stars hd.1 hall,
      skipComment_cons hd.2]

theorem spelled_of_mem {rule : LexRule} {r : Regexp} (hmem : (rule, r) ∈ sqlRules) {w : Str}
    (hw : w ∈ r.matches') : Spelled rule w := by
  rw [sqlRules, List.mem_append, List.mem_append] at hmem
  rcases hmem with (hmem | hmem) | hmem
  · simp only [List.mem_cons, List.not_mem_nil, or_false, Prod.mk.injEq] at hmem
    rcases hmem with ⟨rfl, rfl⟩ | ⟨rfl, rfl⟩ | ⟨rfl, rfl⟩ | ⟨rfl, rfl⟩ | ⟨rfl, rfl⟩ | ⟨rfl, rfl⟩ |
      ⟨rfl, rfl⟩ | ⟨rfl, rfl⟩
    · obtain ⟨c, v, hcv, -, hall⟩ := plus_oneOf hw
      refine ⟨hcv ▸ List.cons_ne_nil c v, fun d hd => ?_⟩
      simpa using hall d hd
    · obtain ⟨u, hu, v, hv, rfl⟩ := mem_mul.mp hw
      rw [mem_char.mp hv]
      rcases mem_add.mp hu with hu | hu
      · rw [RegularExpression.matches'_epsilon, Language.mem_one] at hu
        exact .inl (by rw [hu]; rfl)
      · exact .inr (by rw [mem_char.mp hu]; rfl)
    · obtain ⟨u, hu, b, hb, rfl⟩ := mem_mul.mp hw
      obtain ⟨x, hx, y, hy, rfl⟩ := mem_mul.mp hu
      rw [mem_char.mp hx, mem_char.mp hy]
      refine ⟨b, rfl, fun hin => ?_⟩
      simpa using all_of_mem_star hb newline hin
    · obtain ⟨u₁, h₁, v₁, hv₁, rfl⟩ := mem_mul.mp hw
      obtain ⟨u₂, h₂, v₂, hv₂, rfl⟩ := mem_mul.mp h₁
      obtain ⟨u₃, h₃, v₃, hv₃, rfl⟩ := mem_mul.mp h₂
      obtain ⟨u₄, h₄, v₄, hv₄, rfl⟩ := mem_mul.mp h₃
      obtain ⟨stars, rfl, hstars⟩ := plus_char hv₂
      rw [mem_char.mp h₄, mem_char.mp hv₄, mem_char.mp hv₁]
      refine ⟨v₃ ++ (stars ++ [asterisk, slash]), by simp, fun rest => ?_⟩
      have htext : v₃ ++ (stars ++ [asterisk, slash]) ++ rest =
          v₃ ++ (stars ++ asterisk :: slash :: rest) := by simp
      rw [htext, skipComment_of_mem hv₃, skipComment_stars (by decide) hstars, skipComment,
        if_pos ⟨rfl, rfl⟩]
    · obtain ⟨u, hu, v, hv, rfl⟩ := mem_mul.mp hw
      obtain ⟨q, hq, b, hb, rfl⟩ := mem_mul.mp hu
      rw [mem_char.mp hq, mem_char.mp hv]
      exact ⟨b, by simp, isBody_of_mem hb⟩
    · obtain ⟨q, hq, b, hb, rfl⟩ := mem_mul.mp hw
      rw [mem_char.mp hq]
      exact ⟨b, rfl, isBody_of_mem hb⟩
    · obtain ⟨u, hu, v, hv, rfl⟩ := mem_mul.mp hw
      obtain ⟨c, ds, rfl, -, hall⟩ := plus_oneOf hv
      rcases mem_add.mp hu with hu | hu
      · rw [RegularExpression.matches'_epsilon, Language.mem_one] at hu
        exact ⟨c, ds, .inl (by rw [hu]; rfl), hall⟩
      · exact ⟨c, ds, .inr (by rw [mem_char.mp hu]; rfl), hall⟩
    · obtain ⟨u, hu, v, hv, rfl⟩ := mem_mul.mp hw
      obtain ⟨c, hc, rfl⟩ := mem_oneOf.mp hu
      exact ⟨c, v, rfl, hc, all_of_mem_star hv⟩
  · obtain ⟨rfl, hop⟩ := mem_opRules hmem hw
    exact ⟨rfl, hop⟩
  · cases List.mem_singleton.mp hmem
    obtain ⟨c, hc, rfl⟩ := mem_oneOf.mp hw
    exact ⟨c, of_decide_eq_true hc, rfl⟩

/-! ### The rule of a piece -/

theorem spelled_of_ruleFor {w : Str} {rule : LexRule} (h : ruleFor sqlRules w = some rule) :
    Spelled rule w := by
  obtain ⟨r, hmem, hw⟩ := ruleFor_some h
  exact spelled_of_mem hmem hw

/-- Whether a piece of the rule may start with the character. -/
def starts : LexRule → UInt8 → Bool
  | .blank, c => c = byte ' ' || c = tab
  | .newline, c => c = newline || c = carriageReturn
  | .lineComment, c => c = dash
  | .blockComment, c => c = slash
  | .string, c | .unterminated, c => c = quote
  | .int, c => isDigit c || c = dash
  | .word, c => isWordStart c
  | .op _, c => (opSpellings.map Str.ofString).any fun op => op.head? = some c
  | .other, _ => false

theorem Spelled.starts {rule : LexRule} {w : Str} (h : Spelled rule w) (hr : rule ≠ .other) :
    ∃ c v, w = c :: v ∧ starts rule c = true := by
  cases rule with
  | blank =>
    obtain ⟨c, v, rfl⟩ := List.exists_cons_of_ne_nil h.1
    exact ⟨c, v, rfl, by simpa [Sql.starts] using h.2 c List.mem_cons_self⟩
  | newline =>
    rcases h with rfl | rfl
    · exact ⟨_, _, rfl, rfl⟩
    · exact ⟨_, _, rfl, rfl⟩
  | lineComment | blockComment | string | unterminated =>
    obtain ⟨b, rfl, -⟩ := h
    exact ⟨_, _, rfl, rfl⟩
  | int =>
    obtain ⟨d, ds, rfl | rfl, hall⟩ := h
    · exact ⟨d, ds, rfl, by simp [Sql.starts, hall d List.mem_cons_self]⟩
    · exact ⟨dash, d :: ds, rfl, by simp [Sql.starts]⟩
  | word =>
    obtain ⟨c, cs, rfl, hc, -⟩ := h
    exact ⟨c, cs, rfl, hc⟩
  | op spelling =>
    obtain ⟨-, hop⟩ := h
    have hne : ∀ op ∈ opSpellings.map Str.ofString, op ≠ [] := by decide
    obtain ⟨c, v, rfl⟩ := List.exists_cons_of_ne_nil (hne w hop)
    exact ⟨c, v, rfl, List.any_eq_true.mpr ⟨c :: v, hop, by simp⟩⟩
  | other => exact absurd rfl hr

/-- One rule for all the fixed spellings. -/
def LexRule.tag : LexRule → LexRule
  | .op _ => .op []
  | rule => rule

def tags : List LexRule :=
  [.blank, .newline, .lineComment, .blockComment, .string, .unterminated, .int, .word, .op []]

theorem tag_mem {rule : LexRule} (hr : rule ≠ .other) : rule.tag ∈ tags := by
  cases rule with
  | other => exact absurd rfl hr
  | op spelling =>
    have hop : LexRule.op [] ∈ tags := by decide
    exact hop
  | _ => decide

/-- Rules of one tag are one rule or two fixed spellings. -/
theorem eq_of_tag {rule rule' : LexRule} (h : rule.tag = rule'.tag) :
    rule = rule' ∨ ∃ op op', rule = .op op ∧ rule' = .op op' := by
  cases rule <;> cases rule' <;> simp [LexRule.tag] at h ⊢

theorem starts_tag (rule : LexRule) (c : UInt8) : starts rule.tag c = starts rule c := by
  cases rule <;> rfl

/-- Only the two rules for strings start alike, and with a dash a comment and a number. -/
theorem starts_alike : ∀ c ∈ allBytes, ∀ a ∈ tags, ∀ b ∈ tags, starts a c = true →
    starts b c = true → a = b ∨ (a, b) ∈ [(.lineComment, .int), (.int, .lineComment),
      (.string, .unterminated), (.unterminated, .string)] := by
  decide +kernel

theorem not_spelled_lineComment_int {w : Str} (h : Spelled .lineComment w) : ¬ Spelled .int w := by
  rintro ⟨d, ds, hw, hall⟩
  obtain ⟨b, rfl, -⟩ := h
  have hdash : isDigit dash = false := by decide
  rcases hw with hw | hw
  · rw [List.cons.injEq] at hw
    rw [← hw.1] at hall
    exact absurd (hall dash List.mem_cons_self) (by rw [hdash]; exact Bool.false_ne_true)
  · rw [List.cons.injEq, List.cons.injEq] at hw
    rw [← hw.2.1] at hall
    exact absurd (hall dash List.mem_cons_self) (by rw [hdash]; exact Bool.false_ne_true)

theorem not_spelled_string_unterminated {w : Str} (h : Spelled .string w) :
    ¬ Spelled .unterminated w := by
  rintro ⟨b', hw, hb'⟩
  obtain ⟨b, rfl, hb⟩ := h
  rw [List.cons.injEq] at hw
  rw [← hw.2, isBody_append_quote [] hb] at hb'
  exact Bool.false_ne_true hb'

/-- But for the last rule, which takes any character, a spelling tells its rule. -/
theorem Spelled.unique {rule rule' : LexRule} {w : Str} (h : Spelled rule w)
    (h' : Spelled rule' w) (hr : rule ≠ .other) (hr' : rule' ≠ .other) : rule = rule' := by
  obtain ⟨c, v, rfl, hc⟩ := h.starts hr
  obtain ⟨c', v', heq, hc'⟩ := h'.starts hr'
  rw [List.cons.injEq] at heq
  rw [← heq.1, ← starts_tag] at hc'
  rw [← starts_tag] at hc
  rcases starts_alike c (mem_allBytes c) _ (tag_mem hr) _ (tag_mem hr') hc hc' with htag | htag
  · rcases eq_of_tag htag with rfl | ⟨op, op', rfl, rfl⟩
    · rfl
    · rw [← h.1, ← h'.1]
  · cases rule <;> cases rule' <;> simp [LexRule.tag] at htag
    · exact absurd h' (not_spelled_lineComment_int h)
    · exact absurd h' (not_spelled_string_unterminated h)
    · exact absurd h (not_spelled_string_unterminated h')
    · exact absurd h (not_spelled_lineComment_int h')

/-- A piece that some rule but the last matches has that rule. -/
theorem ruleFor_eq {rule : LexRule} {r : Regexp} {w : Str} (hmem : (rule, r) ∈ sqlRules)
    (hw : w ∈ r.matches') (hr : rule ≠ .other) : ruleFor sqlRules w = some rule := by
  cases hfor : ruleFor sqlRules w with
  | none => exact absurd hfor (ruleFor_ne_none hmem hw)
  | some rule' =>
    have hr' : rule' ≠ .other := by
      rintro rfl
      -- the last rule is the first to match only where no other one does
      have hlast : ∀ x ∈ sqlRules.dropLast, x.1 ≠ LexRule.other := by
        simp [sqlRules, opSpellings]
      have hsplit : sqlRules = sqlRules.dropLast ++ [(.other, oneOf fun c => c ≠ newline)] := by
        rw [sqlRules, List.dropLast_concat]
      obtain ⟨x, hfind, hx⟩ := Option.map_eq_some_iff.mp hfor
      rw [hsplit, List.find?_append, List.find?_singleton] at hfind
      cases hinit : sqlRules.dropLast.find? fun r => r.2.rmatch w with
      | some y =>
        rw [hinit] at hfind
        cases hfind
        exact hlast _ (List.mem_of_find?_eq_some hinit) hx
      | none =>
        rw [hsplit, List.mem_append, List.mem_singleton] at hmem
        rcases hmem with hmem | hmem
        · exact List.find?_eq_none.mp hinit _ hmem
            ((RegularExpression.rmatch_iff_matches' r w).mpr hw)
        · cases hmem
          exact hr rfl
    rw [(spelled_of_mem hmem hw).unique (spelled_of_ruleFor hfor) hr hr']

theorem mem_star_oneOf {p : UInt8 → Bool} {w : Str} (h : ∀ c ∈ w, p c = true) :
    w ∈ (oneOf p).star.matches' := by
  induction w with
  | nil => exact Language.nil_mem_kstar _
  | cons c w ih =>
    exact star_cons (v := [c]) (mem_oneOf.mpr ⟨c, h c List.mem_cons_self, rfl⟩)
      (ih fun d hd => h d (List.mem_cons_of_mem _ hd))

theorem ruleFor_lineComment {w : Str} (h : Spelled .lineComment w) :
    ruleFor sqlRules w = some .lineComment := by
  have hmem : (LexRule.lineComment,
      (char dash * char dash * (oneOf fun c => c ≠ newline).star : Regexp)) ∈ sqlRules :=
    List.mem_append_left _ (List.mem_append_left _ (.tail _ (.tail _ (.head _))))
  obtain ⟨b, rfl, hline⟩ := h
  refine ruleFor_eq hmem (mem_mul.mpr ⟨[dash, dash], ?_, b, mem_star_oneOf fun c hc => ?_, rfl⟩) nofun
  · exact mem_mul.mpr ⟨[dash], mem_char.mpr rfl, [dash], mem_char.mpr rfl, rfl⟩
  · exact decide_eq_true fun heq => hline (heq ▸ hc)

/-- A line comment is taken up to the end of the line or of the text. -/
theorem lineComment_end {text : Str} {rule : LexRule} {n : Nat}
    (h : munch sqlRules text = some (rule, n)) (hw : Spelled .lineComment (text.take n)) :
    text.drop n = [] ∨ (text.drop n).head? = some newline := by
  obtain ⟨-, hle, -, hlonger⟩ := longest_some.mp h
  cases hrest : text.drop n with
  | nil => exact .inl rfl
  | cons c rest =>
    right
    by_contra hc
    have hne : newline ≠ c := fun heq => hc (congrArg some heq.symm)
    have hlt : n < text.length := by
      have hlen := congrArg List.length hrest
      rw [List.length_drop, List.length_cons] at hlen
      omega
    have hnext : text.take (n + 1) = text.take n ++ [c] := by
      rw [List.take_add, hrest]
      rfl
    obtain ⟨b, hb, hline⟩ := hw
    have hlong : Spelled .lineComment (text.take (n + 1)) := by
      refine ⟨b ++ [c], by rw [hnext, hb]; rfl, fun hin => ?_⟩
      exact (List.mem_append.mp hin).elim hline fun h => hne (List.mem_singleton.mp h)
    have hnone := hlonger (n + 1) (Nat.lt_succ_self n) hlt
    rw [ruleFor_lineComment hlong] at hnone
    cases hnone

/-! ### Pieces of a text -/

/-- The piece the scanner makes a SEMI of. -/
def semiLexeme : Lexeme := (.op [semicolon], [semicolon])

/-- No piece of the text is an error. -/
def Clean (ls : List Lexeme) : Prop := ∀ l ∈ ls, ∀ e, action l ≠ .error e

theorem Clean.of_append {ls ms : List Lexeme} (h : Clean (ls ++ ms)) : Clean ls ∧ Clean ms :=
  ⟨fun l hl => h l (List.mem_append_left _ hl), fun l hl => h l (List.mem_append_right _ hl)⟩

/-- No piece is a SEMI. -/
def NoSemi (ls : List Lexeme) : Prop := ∀ l ∈ ls, l.1 ≠ .op [semicolon]

/-- A piece of the text: its rule is one of the eight before the fixed spellings, or it
is a fixed spelling, or it is a character no other rule takes. -/
theorem piece_cases {text : Str} {rule : LexRule} {n : Nat}
    (h : munch sqlRules text = some (rule, n)) :
    (∃ r, (rule, r) ∈ sqlRules.take 8 ∧ text.take n ∈ r.matches' ∧ ∀ op, rule ≠ .op op) ∨
    (rule = .op (text.take n) ∧ text.take n ∈ opSpellings.map Str.ofString) ∨ rule = .other := by
  obtain ⟨r, hmem, hw⟩ := ruleFor_some (longest_some.mp h).2.2.1
  rw [sqlRules, List.mem_append, List.mem_append] at hmem
  rcases hmem with (hmem | hmem) | hmem
  · refine .inl ⟨r, hmem, hw, ?_⟩
    rintro op rfl
    simp at hmem
  · exact .inr (.inl (mem_opRules hmem hw))
  · cases List.mem_singleton.mp hmem
    exact .inr (.inr rfl)

/-- A piece of the rule for `;` is `;`. -/
theorem piece_semi {text : Str} {rule : LexRule} {n : Nat}
    (h : munch sqlRules text = some (rule, n)) (hsemi : rule = .op [semicolon]) :
    (rule, text.take n) = semiLexeme := by
  subst hsemi
  rcases piece_cases h with ⟨r, -, -, hop⟩ | ⟨hop, -⟩ | hother
  · exact absurd rfl (hop _)
  · rw [← LexRule.op.inj hop]
    rfl
  · cases hother

/-- No other piece gives a SEMI. -/
theorem piece_kind {text : Str} {rule : LexRule} {n : Nat} {t : Token}
    (h : munch sqlRules text = some (rule, n)) (hsemi : rule ≠ .op [semicolon])
    (ht : action (rule, text.take n) = .ok (some t)) : t.kind ≠ .semi := by
  have hkw : ∀ lower kw, keywordKind lower = some kw → kw ≠ .semi := by
    intro lower kw hkw
    obtain ⟨entry, hfind, rfl⟩ := Option.map_eq_some_iff.mp hkw
    have hall : ∀ entry ∈ kwTable, entry.2 ≠ .semi := by decide
    exact hall entry (List.mem_of_find?_eq_some hfind)
  rcases piece_cases h with ⟨r, -, -, hop⟩ | ⟨hop, hmem⟩ | hother
  · cases rule with
    | blank | newline | lineComment | blockComment | unterminated | other => cases ht
    | string | int =>
      cases ht
      nofun
    | word =>
      rw [action] at ht
      split at ht
      · rename_i kw hkind
        split at ht
        · cases ht
        · cases ht
          exact hkw _ kw hkind
      · cases ht
        nofun
    | op spelling => exact absurd rfl (hop _)
  · have hall : ∀ w ∈ opSpellings.map Str.ofString, w ≠ [semicolon] → opKind w ≠ .semi := by decide
    rw [hop] at ht
    cases ht
    exact hall _ hmem fun heq => hsemi (hop.trans (by rw [heq]))
  · rw [hother] at ht
    cases ht

/-- A piece of white space gives no token. -/
theorem piece_space {text : Str} {rule : LexRule} {n : Nat} {t : Option Token}
    (h : munch sqlRules text = some (rule, n)) (hspace : ∀ c ∈ text.take n, isSpace c = true)
    (ht : action (rule, text.take n) = .ok t) : t = none := by
  rcases piece_cases h with ⟨r, hmem, hw, hop⟩ | ⟨-, hmem⟩ | hother
  · simp only [sqlRules, List.cons_append, List.nil_append, List.take_succ_cons, List.take_zero,
      List.mem_cons, List.not_mem_nil, or_false, Prod.mk.injEq] at hmem
    rcases hmem with ⟨rfl, rfl⟩ | ⟨rfl, rfl⟩ | ⟨rfl, rfl⟩ | ⟨rfl, rfl⟩ | ⟨rfl, rfl⟩ | ⟨rfl, rfl⟩ |
      ⟨rfl, rfl⟩ | ⟨rfl, rfl⟩
    · cases ht
      rfl
    · cases ht
      rfl
    · cases ht
      rfl
    · cases ht
      rfl
    · obtain ⟨u, -, v, hv, heq⟩ := mem_mul.mp hw
      rw [mem_char.mp hv] at heq
      have hquote := hspace quote (by rw [← heq]; simp)
      cases hquote
    · cases ht
    · obtain ⟨u, -, v, hv, heq⟩ := mem_mul.mp hw
      obtain ⟨c, _, rfl, hc, -⟩ := plus_oneOf hv
      have hall : ∀ c ∈ allBytes, isDigit c = true → isSpace c = false := by decide +kernel
      have hcspace := hspace c (by rw [← heq]; simp)
      rw [hall c (mem_allBytes c) hc] at hcspace
      cases hcspace
    · obtain ⟨u, hu, v, -, heq⟩ := mem_mul.mp hw
      obtain ⟨c, hc, rfl⟩ := mem_oneOf.mp hu
      have hall : ∀ c ∈ allBytes, (isUpper c || isLower c || c = byte '_') = true →
          isSpace c = false := by decide +kernel
      have hcspace := hspace c (by rw [← heq]; simp)
      rw [hall c (mem_allBytes c) hc] at hcspace
      cases hcspace
  · have hall : ∀ w ∈ opSpellings.map Str.ofString, w.any (fun c => !isSpace c) = true := by decide
    have hany := hall _ hmem
    rw [List.any_eq_true] at hany
    obtain ⟨c, hc, hcs⟩ := hany
    rw [hspace c hc] at hcs
    cases hcs
  · rw [hother] at ht
    cases ht

theorem tokens_append {ls ms : List Lexeme} {ts : List Token} (h : tokens (ls ++ ms) = .ok ts) :
    ∃ ts₁ ts₂, tokens ls = .ok ts₁ ∧ tokens ms = .ok ts₂ ∧ ts = ts₁ ++ ts₂ := by
  induction ls generalizing ts with
  | nil => exact ⟨[], ts, rfl, h, rfl⟩
  | cons l ls ih =>
    obtain ⟨t, rest, ht, hrest, rfl⟩ := tokens_cons.mp h
    obtain ⟨ts₁, ts₂, h₁, h₂, rfl⟩ := ih hrest
    exact ⟨t.toList ++ ts₁, ts₂, tokens_cons.mpr ⟨t, ts₁, ht, h₁, rfl⟩, h₂,
      by rw [List.append_assoc]⟩

theorem clean_of_tokens {ls : List Lexeme} : ∀ {ts : List Token}, tokens ls = .ok ts → Clean ls := by
  induction ls with
  | nil => exact fun _ => nofun
  | cons l ls ih =>
    intro ts h
    obtain ⟨t, rest, ht, hrest, -⟩ := tokens_cons.mp h
    intro l' hl' e he
    rcases List.mem_cons.mp hl' with rfl | hl'
    · rw [ht] at he
      cases he
    · exact ih hrest l' hl' e he

/-- The pieces before the first SEMI give tokens that are no SEMI. -/
theorem tokens_noSemi {ls : List Lexeme} : ∀ {text : Str} {ms : List Lexeme} {ts : List Token},
    Lexes sqlRules text (ls ++ ms) → NoSemi ls → tokens ls = .ok ts → ∀ t ∈ ts, t.kind ≠ .semi := by
  induction ls with
  | nil =>
    intro text ms ts _ _ hts
    cases hts
    exact nofun
  | cons l ls ih =>
    intro text ms ts h hsemi hts
    obtain ⟨t, rest, ht, hrest, rfl⟩ := tokens_cons.mp hts
    cases h with
    | cons hmunch hlexes =>
      intro u hu
      rcases List.mem_append.mp hu with hu | hu
      · rw [Option.mem_toList.mp hu] at ht
        exact piece_kind hmunch (hsemi _ List.mem_cons_self) ht
      · exact ih hlexes (fun l hl => hsemi l (List.mem_cons_of_mem _ hl)) hrest u hu

theorem tokens_space {text : Str} {ls : List Lexeme} (h : Lexes sqlRules text ls) :
    ∀ {ts : List Token}, (∀ c ∈ cover ls, isSpace c = true) → tokens ls = .ok ts → ts = [] := by
  induction h with
  | nil =>
    intro ts _ hts
    cases hts
    rfl
  | cons hmunch _ ih =>
    intro ts hspace hts
    obtain ⟨t, rest, ht, hrest, rfl⟩ := tokens_cons.mp hts
    rw [piece_space hmunch (fun c hc => hspace c (List.mem_append_left _ hc)) ht,
      ih (fun c hc => hspace c (List.mem_append_right _ hc)) hrest]
    rfl

end CwDb.Sql

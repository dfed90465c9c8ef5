import CwDb.Sql.Pieces
import Mathlib.Data.List.TakeWhile
import Mathlib.Algebra.Group.Int.Defs

/-! What literals mean.

A string literal may hold any text but a NUL, its quotes, backslashes and newlines
escaped (`quoted`); the scanner takes exactly the literal, whatever comes after it,
and gives the text back. An integer literal has any number of digits, and `strtoll`
makes a 64-bit number of them: the number that is written where it fits, and the
nearest one that does where it does not, without a word (`literals_faithful_iff`). -/
namespace CwDb.Sql
open Foundation Foundation.LongestMatch

/-! ### Strings -/

def escapeChar (c : UInt8) : Str :=
  if c = backslash then [backslash, backslash]
  else if c = quote then [backslash, quote]
  else if c = newline then [backslash, byte 'n']
  else [c]

/-- A text as a literal. -/
def quoted (s : Str) : Str := quote :: (s.flatMap escapeChar ++ [quote])

theorem escapeChar_cases (c : UInt8) :
    (∃ e, escapeChar c = [backslash, e] ∧ e ≠ newline ∧ unescape e = c) ∨
      (escapeChar c = [c] ∧ c ≠ quote ∧ c ≠ backslash ∧ c ≠ newline) := by
  unfold escapeChar
  by_cases hb : c = backslash
  · exact .inl ⟨backslash, if_pos hb, by decide, by rw [hb]; rfl⟩
  rw [if_neg hb]
  by_cases hq : c = quote
  · exact .inl ⟨quote, if_pos hq, by decide, by rw [hq]; rfl⟩
  rw [if_neg hq]
  by_cases hn : c = newline
  · exact .inl ⟨byte 'n', if_pos hn, by decide, by rw [hn]; rfl⟩
  rw [if_neg hn]
  exact .inr ⟨rfl, hq, hb, hn⟩

theorem isBody_escaped (s : Str) : isBody (s.flatMap escapeChar) = true := by
  induction s with
  | nil => rfl
  | cons c s ih =>
    rw [List.flatMap_cons]
    rcases escapeChar_cases c with ⟨e, hc, he, -⟩ | ⟨hc, hq, hb, hn⟩
    · rw [hc, List.cons_append, List.singleton_append, isBody_escape, ih]
      simp [he]
    · rw [hc, List.singleton_append, isBody_cons hb, ih]
      simp [hq, hn]

theorem decodeBody_cons {c : UInt8} (hc : c ≠ backslash) (w : Str) :
    decodeBody (c :: w) = c :: decodeBody w := by
  cases w with
  | nil => rfl
  | cons e w => rw [decodeBody, if_neg hc]

theorem decodeBody_escaped (s : Str) : decodeBody (s.flatMap escapeChar) = s := by
  induction s with
  | nil => rfl
  | cons c s ih =>
    rw [List.flatMap_cons]
    rcases escapeChar_cases c with ⟨e, hc, -, he⟩ | ⟨hc, -, hb, -⟩
    · rw [hc, List.cons_append, List.singleton_append, decodeBody, if_pos rfl, ih, he]
    · rw [hc, List.singleton_append, decodeBody_cons hb, ih]

theorem decodeString_quoted (s : Str) : decodeString (quoted s) = s := by
  rw [decodeString, quoted, List.tail_cons, List.dropLast_concat, decodeBody_escaped]

/-- Only the rules for strings, and the last one, take a piece that starts with a quote. -/
theorem rule_of_quote {rule : LexRule} {w : Str} (h : Spelled rule (quote :: w)) :
    rule = .string ∨ rule = .unterminated ∨ rule = .other := by
  by_cases hr : rule = .other
  · exact .inr (.inr hr)
  · obtain ⟨c, v, heq, hc⟩ := h.starts hr
    rw [← (List.cons.inj heq).1, ← starts_tag] at hc
    have hall : ∀ a ∈ tags, starts a quote = true → a = .string ∨ a = .unterminated := by decide
    rcases hall _ (tag_mem hr) hc with htag | htag
    · exact (eq_of_tag (show rule.tag = LexRule.tag .string from htag)).elim .inl
        fun ⟨_, _, _, h⟩ => absurd h nofun
    · exact (eq_of_tag (show rule.tag = LexRule.tag .unterminated from htag)).elim
        (fun h => .inr (.inl h)) fun ⟨_, _, _, h⟩ => absurd h nofun

/-- Nothing that goes on after a literal is a piece. -/
theorem not_spelled_string_append {rule : LexRule} {w x : Str} (hw : Spelled .string w)
    (hx : x ≠ []) : ¬ Spelled rule (w ++ x) := by
  intro h
  obtain ⟨b, rfl, hb⟩ := hw
  have htext : quote :: (b ++ [quote]) ++ x = quote :: (b ++ quote :: x) := by simp
  have hnot : ∀ y, isBody (b ++ quote :: y) ≠ true := fun y => by
    rw [isBody_append_quote y hb]
    exact Bool.false_ne_true
  rw [htext] at h
  rcases rule_of_quote h with rfl | rfl | rfl
  · obtain ⟨b', hb', hbody⟩ := h
    have hlast := congrArg List.dropLast (List.cons.inj hb').2
    rw [List.dropLast_concat, List.dropLast_append_of_ne_nil (List.cons_ne_nil _ _),
      List.dropLast_cons_of_ne_nil hx] at hlast
    exact hnot _ (hlast ▸ hbody)
  · obtain ⟨b', hb', hbody⟩ := h
    exact hnot _ ((List.cons.inj hb').2 ▸ hbody)
  · obtain ⟨c, -, hc⟩ := h
    exact absurd (congrArg List.length hc) (by simp)

/-- A literal is taken up to the quote that ends it. -/
theorem munch_string {b : Str} (hb : isBody b = true) (rest : Str) :
    munch sqlRules (quote :: (b ++ quote :: rest)) = some (.string, b.length + 2) := by
  have hmem : (LexRule.string, (char quote * stringBody * char quote : Regexp)) ∈ sqlRules :=
    List.mem_append_left _ (List.mem_append_left _
      (.tail _ (.tail _ (.tail _ (.tail _ (.head _))))))
  have hsplit : quote :: (b ++ quote :: rest) = quote :: (b ++ [quote]) ++ rest := by simp
  have hlength : (quote :: (b ++ [quote])).length = b.length + 2 := by simp
  rw [hsplit]
  refine longest_some.mpr ⟨by omega, by simp, ?_, fun k hk hle => ?_⟩
  · rw [← hlength, List.take_left' rfl]
    refine ruleFor_eq hmem (mem_mul.mpr ⟨quote :: b, ?_, [quote], mem_char.mpr rfl, by simp⟩) nofun
    exact mem_mul.mpr ⟨[quote], mem_char.mpr rfl, b, mem_of_isBody hb, rfl⟩
  · by_contra hsome
    obtain ⟨rule, hrule⟩ := Option.ne_none_iff_exists'.mp hsome
    rw [List.take_append, List.take_of_length_le (by omega)] at hrule
    refine not_spelled_string_append ⟨b, rfl, hb⟩ (fun hnil => ?_) (spelled_of_ruleFor hrule)
    have hzero := congrArg List.length hnil
    rw [List.length_append] at hle
    rw [List.length_take, List.length_nil] at hzero
    omega

/-! ### Integers -/

def digitValue (c : UInt8) : Nat := c.toNat - 48

def decimal (digits : Str) : Nat := digits.foldl (fun n c => 10 * n + digitValue c) 0

/-- The integer a literal denotes. -/
def denotes : Str → Int
  | [] => 0
  | c :: rest => if c = dash then -(decimal rest : Int) else decimal (c :: rest)

/-- `std::strtoll` in base 10: white space, a sign and digits from the front of the
text, and the nearest `long long` to the number they make. -/
def strtoll (text : Str) : Int64 :=
  let (negative, rest) : Bool × Str :=
    match text.dropWhile isSpace with
    | [] => (false, [])
    | c :: rest =>
      if c = dash then (true, rest) else if c = byte '+' then (false, rest) else (false, c :: rest)
  let n : Int := decimal (rest.takeWhile isDigit)
  let i := if negative then -n else n
  if i < Int64.minValue.toInt then Int64.minValue
  else if Int64.maxValue.toInt < i then Int64.maxValue
  else Int64.ofInt i

/-- The `literal` rules of the grammar. -/
def literalValue (t : Token) : Option Value :=
  match t.kind with
  | .intLit => some (.int (strtoll t.text))
  | .stringLit => some (.str t.text)
  | .nullKw => some .null
  | _ => none

def intRule : Regexp := (1 + char dash) * plus (oneOf isDigit)

theorem intRule_mem : (LexRule.int, intRule) ∈ sqlRules :=
  List.mem_append_left _ (List.mem_append_left _
    (.tail _ (.tail _ (.tail _ (.tail _ (.tail _ (.tail _ (.head _))))))))

theorem isDigit_plain (c : UInt8) (h : isDigit c = true) :
    c ≠ dash ∧ c ≠ byte '+' ∧ isSpace c = false ∧ c ≠ 0 := by
  have hall : ∀ c ∈ allBytes, isDigit c = true →
      c ≠ dash ∧ c ≠ byte '+' ∧ isSpace c = false ∧ c ≠ 0 := by decide +kernel
  exact hall c (mem_allBytes c) h

/-- What `strtoll` makes of a literal: the integer it denotes, or the nearest one. -/
theorem strtoll_eq {text : Str} (h : Spelled .int text) :
    strtoll text =
      if denotes text < Int64.minValue.toInt then Int64.minValue
      else if Int64.maxValue.toInt < denotes text then Int64.maxValue
      else Int64.ofInt (denotes text) := by
  obtain ⟨d, ds, rfl | rfl, hall⟩ := h
  · obtain ⟨hdash, hplus, hspace, -⟩ := isDigit_plain d (hall d List.mem_cons_self)
    have hdigits : (d :: ds).takeWhile isDigit = d :: ds := List.takeWhile_eq_self_iff.mpr hall
    simp only [strtoll, List.dropWhile_cons_of_neg (by simp [hspace] : ¬ isSpace d = true),
      if_neg hdash, if_neg hplus, hdigits, denotes, Bool.false_eq_true, if_false]
  · have hspace : ¬ isSpace dash = true := by decide
    have hdigits : (d :: ds).takeWhile isDigit = d :: ds := List.takeWhile_eq_self_iff.mpr hall
    simp only [strtoll, List.dropWhile_cons_of_neg hspace, if_true, hdigits, denotes]

/-- The value is the integer exactly when that has 64 bits. -/
theorem strtoll_exact_iff {text : Str} (h : Spelled .int text) :
    (strtoll text).toInt = denotes text ↔ -2 ^ 63 ≤ denotes text ∧ denotes text < 2 ^ 63 := by
  have hmin : Int64.minValue.toInt = -2 ^ 63 := rfl
  have hmax : Int64.maxValue.toInt = 2 ^ 63 - 1 := rfl
  rw [strtoll_eq h]
  by_cases hlow : denotes text < Int64.minValue.toInt
  · rw [if_pos hlow]
    omega
  rw [if_neg hlow]
  by_cases hhigh : Int64.maxValue.toInt < denotes text
  · rw [if_pos hhigh]
    omega
  rw [if_neg hhigh]
  have hexact : (Int64.ofInt (denotes text)).toInt = denotes text :=
    Int64.toInt_ofInt_of_le (by omega) (by omega)
  refine iff_of_true hexact ⟨by omega, by omega⟩

/-- An integer literal on its own is one token. -/
theorem lex_int {text : Str} (h : text ∈ intRule.matches') : lex text = .ok [⟨.intLit, text⟩] := by
  have hne : text ≠ [] := by
    obtain ⟨d, ds, rfl | rfl, -⟩ := spelled_of_mem intRule_mem h
    · exact List.cons_ne_nil _ _
    · exact List.cons_ne_nil _ _
  have hmunch : munch sqlRules text = some (.int, text.length) :=
    longest_some.mpr ⟨List.length_pos_iff.mpr hne, le_rfl,
      (congrArg _ List.take_length).trans (ruleFor_eq intRule_mem h nofun),
      fun k hk hle => absurd hk (not_lt.mpr hle)⟩
  have hlexes : Lexes sqlRules text [(.int, text)] := by
    have hcons := Lexes.cons hmunch (by rw [List.drop_length]; exact .nil)
    rwa [List.take_length] at hcons
  rw [lex, lexemes_eq_some.mpr hlexes]
  rfl

/-! ### Both -/

theorem cString_append {w : Str} (hw : ∀ c ∈ w, c ≠ 0) (rest : Str) :
    cString (w ++ rest) = w ++ cString rest :=
  List.takeWhile_append_of_pos fun c hc => decide_eq_true (hw c hc)

theorem cString_eq_self {w : Str} (hw : ∀ c ∈ w, c ≠ 0) : cString w = w :=
  List.takeWhile_eq_self_iff.mpr fun c hc => decide_eq_true (hw c hc)

theorem quoted_ne_zero {s : Str} (hs : ∀ c ∈ s, c ≠ 0) : ∀ c ∈ quoted s, c ≠ 0 := by
  intro c hc
  have hspecial : quote ≠ 0 ∧ backslash ≠ 0 ∧ byte 'n' ≠ 0 := by decide
  simp only [quoted, List.mem_cons, List.mem_append, List.mem_flatMap, List.not_mem_nil,
    or_false] at hc
  rcases hc with rfl | ⟨d, hd, hc⟩ | rfl
  · exact hspecial.1
  · unfold escapeChar at hc
    split at hc
    · simp only [List.mem_cons, List.not_mem_nil, or_false, or_self] at hc
      exact hc ▸ hspecial.2.1
    · split at hc
      · simp only [List.mem_cons, List.not_mem_nil, or_false] at hc
        exact hc.elim (fun h => h ▸ hspecial.2.1) fun h => h ▸ hspecial.1
      · split at hc
        · simp only [List.mem_cons, List.not_mem_nil, or_false] at hc
          exact hc.elim (fun h => h ▸ hspecial.2.1) fun h => h ▸ hspecial.2.2
        · rw [List.mem_singleton.mp hc]
          exact hs d hd
  · exact hspecial.1

/-- A string literal is read back as the text it was made of, whatever follows it. An
integer literal is read as the integer it denotes exactly when that has 64 bits; the
scanner never objects to one. -/
theorem literals_faithful_iff (s rest : Str) (hs : ∀ c ∈ s, c ≠ 0) {text : Str}
    (htext : text ∈ intRule.matches') :
    (munch sqlRules (cString (quoted s ++ rest)) = some (.string, (quoted s).length) ∧
      (cString (quoted s ++ rest)).take (quoted s).length = quoted s ∧
      action (.string, quoted s) = .ok (some ⟨.stringLit, s⟩) ∧
      literalValue ⟨.stringLit, s⟩ = some (.str s)) ∧
    (((∃ e, lex (cString text) = .error e) ∨ ∃ t i, lex (cString text) = .ok [t] ∧
        t.kind = .intLit ∧ literalValue t = some (.int i) ∧ i.toInt = denotes text) ↔
      -2 ^ 63 ≤ denotes text ∧ denotes text < 2 ^ 63) := by
  constructor
  · have hlength : (quoted s).length = (s.flatMap escapeChar).length + 2 := by simp [quoted]
    have hquoted : quoted s ++ cString rest =
        quote :: (s.flatMap escapeChar ++ quote :: cString rest) := by simp [quoted]
    rw [cString_append (quoted_ne_zero hs)]
    refine ⟨?_, List.take_left' rfl, ?_, rfl⟩
    · rw [hquoted, munch_string (isBody_escaped s), hlength]
    · rw [action, decodeString_quoted]
  · have hspelled := spelled_of_mem intRule_mem htext
    have hzero : ∀ c ∈ text, c ≠ 0 := by
      have hdash : dash ≠ 0 := by decide
      obtain ⟨d, ds, rfl | rfl, hall⟩ := hspelled
      · exact fun c hc => (isDigit_plain c (hall c hc)).2.2.2
      · exact List.forall_mem_cons.mpr ⟨hdash, fun c hc => (isDigit_plain c (hall c hc)).2.2.2⟩
    rw [cString_eq_self hzero, lex_int htext, ← strtoll_exact_iff hspelled]
    constructor
    · rintro (⟨e, he⟩ | ⟨t, i, ht, -, hvalue, hi⟩)
      · cases he
      · cases ht
        cases hvalue
        exact hi
    · intro hi
      exact .inr ⟨_, _, rfl, rfl, rfl, hi⟩

/-- A string with a quote in it, and an integer. -/
theorem literals_faithful_seven :
    munch sqlRules (cString (quoted [byte 'a', quote] ++ [semicolon])) = some (.string, 5) ∧
      ((∃ e, lex (cString (Str.ofString "7")) = .error e) ∨
        ∃ t i, lex (cString (Str.ofString "7")) = .ok [t] ∧ t.kind = .intLit ∧
          literalValue t = some (.int i) ∧ i.toInt = denotes (Str.ofString "7")) := by
  have hseven : Str.ofString "7" ∈ intRule.matches' :=
    (RegularExpression.rmatch_iff_matches' _ _).mp (by decide +kernel)
  obtain ⟨⟨hmunch, -⟩, hint⟩ := literals_faithful_iff [byte 'a', quote] [semicolon]
    (by decide +kernel) hseven
  have hlength : (quoted [byte 'a', quote]).length = 5 := by decide +kernel
  rw [hlength] at hmunch
  exact ⟨hmunch, hint.mpr (by decide)⟩

example : strtoll (Str.ofString "-9223372036854775808") = Int64.minValue := by decide

/-- One more than the largest integer is read as the largest. -/
theorem not_literals_faithful : ¬ ∀ text ∈ intRule.matches',
    (∃ e, lex (cString text) = .error e) ∨ ∃ t i, lex (cString text) = .ok [t] ∧
      t.kind = .intLit ∧ literalValue t = some (.int i) ∧ i.toInt = denotes text := by
  intro hall
  have hmem : Str.ofString "9223372036854775808" ∈ intRule.matches' :=
    (RegularExpression.rmatch_iff_matches' _ _).mp (by decide +kernel)
  rcases hall _ hmem with ⟨e, he⟩ | ⟨t, i, ht, -, hvalue, hi⟩
  · rw [show cString (Str.ofString "9223372036854775808") = Str.ofString "9223372036854775808"
      by decide, lex_int hmem] at he
    cases he
  · rw [show cString (Str.ofString "9223372036854775808") = Str.ofString "9223372036854775808"
      by decide, lex_int hmem] at ht
    cases ht
    cases hvalue
    have hlost : (strtoll (Str.ofString "9223372036854775808")).toInt ≠
        denotes (Str.ofString "9223372036854775808") := by decide
    exact hlost hi

end CwDb.Sql

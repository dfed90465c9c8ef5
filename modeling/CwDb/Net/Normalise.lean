import CwDb.Sql.Grammar
import CwDb.Sql.Scanning
import Mathlib.Data.List.DropRight

/-! The semicolon the server adds.

A request may leave out the `;` of its statement; the server puts one at the end
unless the last character that is not white space is one. Behind the statement, and
behind its `;` if there is one, a request may have white space and comments, and it is
their last comment that decides what the added `;` is: after a line comment it is part
of the comment, after a block comment it is a token. So all is well when the last
comment is a line comment behind a `;`, or a block comment and there was no `;`
(`query_normaliseSql_iff`).

The scanner is given a C string, so a NUL in a comment ends the text there; the comment
with the first NUL then decides. -/
namespace CwDb.Net
open Sql Foundation Foundation.LongestMatch

/-- Trims white space at the end and completes the statement with a `;`. -/
def normaliseSql (sql : Str) : Str :=
  let sql := sql.rdropWhile isSpace
  if sql ≠ [] ∧ sql.getLast? ≠ some semicolon then sql ++ [semicolon] else sql

/-! ### Request bodies -/

def semiToken : Token := ⟨.semi, [semicolon]⟩

/-- The pieces and tokens of a text that ends with the last token of a statement: with
a `;` right after it the parser accepts it. -/
structure Scanned (parser : Parser) (text : Str) (st : Statement) (ps : List Lexeme)
    (ts : List Token) : Prop where
  noNul : ∀ c ∈ text, c ≠ 0
  scans : Lexes sqlRules (text ++ [semicolon]) (ps ++ [semiLexeme])
  tokens : tokens ps = .ok ts
  last : ∃ p t, ps.getLast? = some p ∧ action p = .ok (some t)
  parses : parser.parse (ts ++ [semiToken]) = some st

/-- The text of one statement, up to its last token. -/
def StatementText (parser : Parser) (text : Str) (st : Statement) : Prop :=
  ∃ ps ts, Scanned parser text st ps ts

/-- White space: what the scanner skips, and the white characters it does not know. -/
def isWhite (l : Lexeme) : Bool :=
  match l.1 with
  | .blank | .newline => true
  | .other => l.2.all isSpace
  | _ => false

def isComment (l : Lexeme) : Bool := l.1 = .lineComment || l.1 = .blockComment

/-- A text of white space and complete comments, with its pieces. -/
structure IsTail (tail : Str) (qs : List Lexeme) : Prop where
  scans : Lexes sqlRules tail qs
  gaps : ∀ q ∈ qs, isWhite q = true ∨ isComment q = true

/-- The pieces up to the first NUL. -/
def visible : List Lexeme → List Lexeme
  | [] => []
  | q :: qs => if (0 : UInt8) ∈ q.2 then [q] else q :: visible qs

/-- What is left of a tail without the white space at its end, up to the first NUL. -/
def core (qs : List Lexeme) : List Lexeme := visible (qs.rdropWhile isWhite)

/-- Whether the `;` that is added, or not, does no harm: there is no comment, or the
scanner knows all the white space before the last one it sees, and that is a line
comment if the body has a `;`, and if not a block comment it sees to its end. -/
def Harmless (hasSemi : Bool) (qs : List Lexeme) : Prop :=
  match (core qs).getLast? with
  | none => True
  | some q => (∀ p ∈ core qs, p.1 ≠ .other) ∧
    if hasSemi then q.1 = .lineComment else q.1 = .blockComment ∧ (0 : UInt8) ∉ q.2

instance (hasSemi : Bool) (qs : List Lexeme) : Decidable (Harmless hasSemi qs) := by
  unfold Harmless
  split <;> infer_instance

/-! ### Trimming -/

theorem rdropWhile_append_pos {p : UInt8 → Bool} {a b : Str} (h : ∀ c ∈ b, p c = true) :
    (a ++ b).rdropWhile p = a.rdropWhile p := by
  rw [List.rdropWhile, List.reverse_append, List.dropWhile_append_of_pos (by simpa using h)]
  rfl

theorem rdropWhile_append_neg {p : UInt8 → Bool} {a b : Str} (h : b.rdropWhile p ≠ []) :
    (a ++ b).rdropWhile p = a ++ b.rdropWhile p := by
  have hne : (b.reverse.dropWhile p).isEmpty = false := by
    rw [List.isEmpty_eq_false_iff]
    exact fun hnil => h (by rw [List.rdropWhile, hnil]; rfl)
  rw [List.rdropWhile, List.reverse_append, List.dropWhile_append, hne]
  simp [List.rdropWhile]

theorem rdropWhile_concat_last {p : UInt8 → Bool} {a : Str} {c : UInt8} (h : p c = false) :
    (a ++ [c]).rdropWhile p = a ++ [c] :=
  List.rdropWhile_concat_neg _ _ _ (by rw [h]; exact Bool.false_ne_true)

/-- What is before a character that stays is not trimmed. -/
theorem rdropWhile_kept {p : UInt8 → Bool} {a : Str} {c : UInt8} (h : p c = false) (b : Str) :
    (a ++ c :: b).rdropWhile p = a ++ c :: b.rdropWhile p := by
  have hc : (c :: b).rdropWhile p = c :: b.rdropWhile p := by
    by_cases hb : b.rdropWhile p = []
    · have hall := List.rdropWhile_eq_nil_iff.mp hb
      rw [← List.singleton_append, rdropWhile_append_pos hall, hb, List.rdropWhile_singleton]
      simp [h]
    · rw [← List.singleton_append, rdropWhile_append_neg hb, List.singleton_append]
  rw [rdropWhile_append_neg (by rw [hc]; exact List.cons_ne_nil _ _), hc]

theorem mem_rdropWhile {p : UInt8 → Bool} {a : Str} {c : UInt8} (h : c ∈ a.rdropWhile p) : c ∈ a :=
  (List.rdropWhile_prefix p a).subset h

/-! ### The pieces of a body -/

theorem isSpace_of_white {l : Lexeme} (h : Spelled l.1 l.2) (hwhite : isWhite l = true) :
    ∀ c ∈ l.2, isSpace c = true := by
  obtain ⟨rule, w⟩ := l
  cases rule with
  | blank =>
    intro c hc
    rcases h.2 c hc with rfl | rfl
    · decide +kernel
    · decide +kernel
  | newline =>
    rcases h with rfl | rfl
    · decide +kernel
    · decide +kernel
  | other => exact List.all_eq_true.mp hwhite
  | _ => cases hwhite

/-- A comment starts with the two characters that tell its kind. -/
theorem comment_spelling {l : Lexeme} (h : Spelled l.1 l.2) (hcomment : isComment l = true) :
    (l.1 = .lineComment ∧ ∃ b, l.2 = dash :: dash :: b ∧ newline ∉ b) ∨
    (l.1 = .blockComment ∧ ∃ b, l.2 = slash :: asterisk :: b ∧
      ∀ rest, skipComment (b ++ rest) = some rest) := by
  obtain ⟨rule, w⟩ := l
  cases rule with
  | lineComment => exact .inl ⟨rfl, h⟩
  | blockComment => exact .inr ⟨rfl, h⟩
  | _ => cases hcomment

/-- White space that is an error to the scanner. -/
theorem isWhite_other {l : Lexeme} (h : Spelled l.1 l.2) (hother : l.1 = .other)
    (hwhite : isWhite l = true) : ∃ c, l = (.other, [c]) ∧ isSpace c = true := by
  obtain ⟨rule, w⟩ := l
  obtain rfl : rule = .other := hother
  obtain ⟨c, -, rfl⟩ := h
  exact ⟨c, rfl, by simpa [isWhite] using hwhite⟩

theorem action_gap {l : Lexeme} (hgap : isWhite l = true ∨ isComment l = true)
    (hother : l.1 ≠ .other) : action l = .ok none := by
  obtain ⟨rule, w⟩ := l
  cases rule with
  | blank | newline | lineComment | blockComment => rfl
  | other => exact absurd rfl hother
  | _ => exact hgap.elim nofun nofun

theorem settled_gap {l : Lexeme} (h : Spelled l.1 l.2)
    (hgap : isWhite l = true ∨ isComment l = true) : Settled l := by
  by_cases hother : l.1 = .other
  · refine .inr (isWhite_other h hother (hgap.resolve_right fun hcomment => ?_))
    simp [isComment, hother] at hcomment
  · refine .inl fun e he => ?_
    rw [action_gap hgap hother] at he
    cases he

theorem breaks_space {c : UInt8} (h : isSpace c = true) : Breaks c := by
  have hall : ∀ c ∈ allBytes, isSpace c = true → isWordChar c = false ∧ c ≠ byte '=' := by
    decide +kernel
  exact hall c (mem_allBytes c) h

theorem breaks_marks : Breaks dash ∧ Breaks slash ∧ Breaks semicolon := by
  unfold Breaks
  decide

theorem breaks_gap {l : Lexeme} (h : Spelled l.1 l.2)
    (hgap : isWhite l = true ∨ isComment l = true) {c : UInt8} (hc : l.2.head? = some c) :
    Breaks c := by
  rcases hgap with hwhite | hcomment
  · exact breaks_space (isSpace_of_white h hwhite c (List.mem_of_head? hc))
  · rcases comment_spelling h hcomment with ⟨-, b, hb, -⟩ | ⟨-, b, hb, -⟩
    · rw [hb, List.head?_cons, Option.some.injEq] at hc
      exact hc ▸ breaks_marks.1
    · rw [hb, List.head?_cons, Option.some.injEq] at hc
      exact hc ▸ breaks_marks.2.1

/-- The last character of a token that is not `;`. -/
theorem token_last {l : Lexeme} (h : Spelled l.1 l.2) {t : Token} (ht : action l = .ok (some t))
    (hsemi : t.kind ≠ .semi) : ∃ w c, l.2 = w ++ [c] ∧ isSpace c = false ∧ c ≠ semicolon := by
  obtain ⟨rule, w⟩ := l
  have hword : ∀ c ∈ allBytes, isWordChar c = true → isSpace c = false ∧ c ≠ semicolon := by
    decide +kernel
  have hlast : ∀ {v : Str}, v ≠ [] → (∀ c ∈ v, isWordChar c = true) →
      ∃ w c, v = w ++ [c] ∧ isSpace c = false ∧ c ≠ semicolon := by
    intro v hv hall
    obtain ⟨v, c, rfl⟩ := (List.eq_nil_or_concat' v).resolve_left hv
    exact ⟨v, c, rfl, hword c (mem_allBytes c) (hall c (by simp))⟩
  cases rule with
  | blank | newline | lineComment | blockComment | unterminated | other => cases ht
  | string =>
    obtain ⟨b, hb, -⟩ := h
    exact ⟨quote :: b, quote, hb, by decide, by decide⟩
  | int =>
    obtain ⟨d, ds, hw, hall⟩ := h
    have hdigits : ∀ c ∈ d :: ds, isWordChar c = true := fun c hc => by
      simp [isWordChar, hall c hc]
    obtain ⟨v, c, hv, hc⟩ := hlast (List.cons_ne_nil d ds) hdigits
    rcases hw with hw | hw
    · exact ⟨v, c, hw.trans hv, hc⟩
    · exact ⟨dash :: v, c, by rw [List.cons_append, ← hv]; exact hw, hc⟩
  | word =>
    obtain ⟨d, ds, hw, hd, hall⟩ := h
    have hstart : isWordChar d = true := by
      simp only [isWordStart, isWordChar, Bool.or_eq_true] at hd ⊢
      exact hd.elim (fun h => .inl (.inl h)) .inr
    obtain ⟨v, c, hv, hc⟩ := hlast (List.cons_ne_nil d ds) (List.forall_mem_cons.mpr ⟨hstart, hall⟩)
    exact ⟨v, c, hw.trans hv, hc⟩
  | op spelling =>
    obtain ⟨hw, hop⟩ := h
    obtain rfl : w = spelling := hw
    cases ht
    have hall : ∀ w ∈ opSpellings.map Str.ofString, opKind w ≠ .semi →
        w ≠ [] ∧ ∀ c ∈ w, isSpace c = false ∧ c ≠ semicolon := by decide +kernel
    obtain ⟨hne, hchars⟩ := hall w hop hsemi
    obtain ⟨v, c, hv⟩ := (List.eq_nil_or_concat' w).resolve_left hne
    exact ⟨v, c, hv, hchars c (by rw [hv]; simp)⟩

section Body
variable {parser : Parser} {text : Str} {st : Statement} {ps : List Lexeme} {ts : List Token}

/-- The tokens of the statement have no `;`. -/
theorem Scanned.noSemi (h : Scanned parser text st ps ts) : ∀ t ∈ ts, t.kind ≠ .semi := by
  obtain ⟨us, u, heq, -, hus⟩ := parser.parse_semi h.parses
  obtain ⟨rfl, -⟩ := List.append_inj' heq rfl
  exact hus

theorem Scanned.cover (h : Scanned parser text st ps ts) : cover ps = text := by
  have hcover := h.scans.cover
  rw [cover_append, cover_cons, cover_nil, List.append_nil] at hcover
  exact (List.append_inj' hcover rfl).1

/-- The statement ends in a character that is not trimmed and not a `;`. -/
theorem Scanned.text_last (h : Scanned parser text st ps ts) :
    ∃ w c, text = w ++ [c] ∧ isSpace c = false ∧ c ≠ semicolon := by
  obtain ⟨p, t, hp, ht⟩ := h.last
  obtain ⟨ps, rfl⟩ := List.getLast?_eq_some_iff.mp hp
  have hmem : t ∈ ts := by
    obtain ⟨ts₁, ts₂, -, h₂, rfl⟩ := tokens_append h.tokens
    obtain ⟨t', rest, ht', -, rfl⟩ := tokens_cons.mp h₂
    rw [ht] at ht'
    cases ht'
    simp
  have hspelled := lexes_spelled h.scans p (by simp)
  obtain ⟨w, c, hw, hc⟩ := token_last hspelled ht (h.noSemi t hmem)
  refine ⟨LongestMatch.cover ps ++ w, c, ?_, hc⟩
  rw [← h.cover, cover_append, cover_cons, cover_nil, List.append_nil, hw, List.append_assoc]

end Body

/-! ### The text the scanner sees -/

theorem visible_eq_self {qs : List Lexeme} (h : ∀ q ∈ qs, (0 : UInt8) ∉ q.2) : visible qs = qs := by
  induction qs with
  | nil => rfl
  | cons q qs ih =>
    rw [List.forall_mem_cons] at h
    rw [visible, if_neg h.1, ih h.2]

/-- The pieces before the first one with a NUL, and it. -/
theorem exists_visible {qs : List Lexeme} (h : ∃ q ∈ qs, (0 : UInt8) ∈ q.2) :
    ∃ v q w, qs = v ++ q :: w ∧ visible qs = v ++ [q] ∧ (0 : UInt8) ∈ q.2 ∧
      ∀ p ∈ v, (0 : UInt8) ∉ p.2 := by
  induction qs with
  | nil =>
    obtain ⟨q, hq, -⟩ := h
    exact absurd hq List.not_mem_nil
  | cons q qs ih =>
    by_cases hq : (0 : UInt8) ∈ q.2
    · exact ⟨[], q, qs, rfl, by rw [visible, if_pos hq]; rfl, hq, nofun⟩
    · obtain ⟨p, hp, hzero⟩ := h
      have hp' : p ∈ qs := (List.mem_cons.mp hp).resolve_left fun heq => hq (heq ▸ hzero)
      obtain ⟨v, r, w, rfl, hvisible, hr, hv⟩ := ih ⟨p, hp', hzero⟩
      exact ⟨q :: v, r, w, rfl, by rw [visible, if_neg hq, hvisible]; rfl, hr,
        List.forall_mem_cons.mpr ⟨hq, hv⟩⟩

theorem cover_ne_zero {ls : List Lexeme} (h : ∀ l ∈ ls, (0 : UInt8) ∉ l.2) :
    ∀ c ∈ cover ls, c ≠ 0 := by
  induction ls with
  | nil => exact nofun
  | cons l ls ih =>
    rw [List.forall_mem_cons] at h
    intro c hc
    rcases List.mem_append.mp hc with hc | hc
    · rintro rfl
      exact h.1 hc
    · exact ih h.2 c hc

/-- Trimming and completing a text leaves what is before its first NUL. -/
theorem cString_trimmed {w : Str} (hw : (0 : UInt8) ∈ w) (x : Str) :
    cString (w.rdropWhile isSpace ++ x) = cString w := by
  obtain ⟨a, b, rfl, hzero⟩ := List.eq_append_cons_of_mem hw
  have hspace : isSpace 0 = false := by decide
  have ha : ∀ c ∈ a, c ≠ 0 := fun c hc heq => hzero (heq ▸ hc)
  rw [rdropWhile_kept hspace, List.append_assoc, cString_append ha, cString_append ha]
  rfl

/-- What the scanner sees of the piece that decides, with what is put behind it. -/
def Ending (q : Lexeme) (ending : Str) : Prop :=
  (q.1 = .lineComment ∧ ∃ b, ending = dash :: dash :: b ∧ newline ∉ b) ∨
  (q.1 = .blockComment ∧ (0 : UInt8) ∉ q.2 ∧ ending = q.2 ++ [semicolon]) ∨
  (q.1 = .blockComment ∧ (0 : UInt8) ∈ q.2 ∧
    ∃ b, ending = slash :: asterisk :: b ∧ skipComment b = none)

theorem ending_cut {q : Lexeme} (h : Spelled q.1 q.2) (hcomment : isComment q = true)
    (hzero : (0 : UInt8) ∈ q.2) : Ending q (cString q.2) := by
  have hmarks : dash ≠ 0 ∧ slash ≠ 0 ∧ asterisk ≠ 0 := by decide
  rcases comment_spelling h hcomment with ⟨hq, b, hb, hline⟩ | ⟨hq, b, hb, hskip⟩
  · refine .inl ⟨hq, cString b, ?_, fun hin => hline ((List.takeWhile_prefix _).subset hin)⟩
    rw [hb, ← List.singleton_append, ← List.singleton_append (l := b),
      cString_append (by simpa using hmarks.1), cString_append (by simpa using hmarks.1)]
    rfl
  · refine .inr (.inr ⟨hq, hzero, cString b, ?_, ?_⟩)
    · rw [hb, ← List.singleton_append, ← List.singleton_append (l := b),
        cString_append (by simpa using hmarks.2.1), cString_append (by simpa using hmarks.2.2)]
      rfl
    · rw [hb] at hzero
      have hin : (0 : UInt8) ∈ b := by
        simpa [hmarks.2.1.symm, hmarks.2.2.symm] using hzero
      obtain ⟨a, r, rfl, hazero⟩ := List.eq_append_cons_of_mem hin
      have hcut : cString (a ++ 0 :: r) = a := by
        rw [cString_append fun c hc heq => hazero (heq ▸ hc)]
        exact List.append_nil a
      rw [hcut]
      by_contra hsome
      obtain ⟨y, hy⟩ := Option.ne_none_iff_exists'.mp hsome
      have hend := hskip []
      rw [List.append_nil, skipComment_append (0 :: r) hy] at hend
      exact absurd (Option.some.inj hend) (by simp)

theorem ending_whole {q : Lexeme} (h : Spelled q.1 q.2) (hcomment : isComment q = true)
    (hzero : (0 : UInt8) ∉ q.2) {x : Str} (hx : x = [] ∨ x = [semicolon])
    (hblock : q.1 = .blockComment → x = [semicolon]) :
    Ending q (q.2.rdropWhile isSpace ++ x) := by
  have hdash : isSpace dash = false := by decide
  have hslash : isSpace slash = false := by decide
  rcases comment_spelling h hcomment with ⟨hq, b, hb, hline⟩ | ⟨hq, b, hb, hskip⟩
  · refine .inl ⟨hq, b.rdropWhile isSpace ++ x, ?_, fun hin => ?_⟩
    · rw [hb, ← List.singleton_append, rdropWhile_kept hdash]
      rfl
    · rcases List.mem_append.mp hin with hin | hin
      · exact hline (mem_rdropWhile hin)
      · have hsemi : newline ∉ [semicolon] := by decide
        rcases hx with rfl | rfl
        · exact absurd hin List.not_mem_nil
        · exact hsemi hin
  · refine .inr (.inl ⟨hq, hzero, ?_⟩)
    obtain ⟨a, ha⟩ := skipComment_last (hskip [])
    rw [List.append_nil] at ha
    have hwhole : q.2 = (slash :: asterisk :: a) ++ [slash] := by rw [hb, ha]; rfl
    rw [hblock hq, hwhole, rdropWhile_concat_last hslash]

section Tail
variable {parser : Parser} {text tail : Str} {st : Statement} {ps qs : List Lexeme}
  {ts : List Token}

/-- The text of the statement, with its `;` if it has one. -/
def front (text : Str) (hasSemi : Bool) : Str := text ++ if hasSemi then [semicolon] else []

theorem front_last (h : Scanned parser text st ps ts) (hasSemi : Bool) :
    ∃ w c, front text hasSemi = w ++ [c] ∧ isSpace c = false ∧
      (c = semicolon ↔ hasSemi = true) := by
  cases hasSemi with
  | false =>
    obtain ⟨w, c, hw, hspace, hsemi⟩ := h.text_last
    exact ⟨w, c, by rw [front, hw]; simp, hspace, by simp [hsemi]⟩
  | true => exact ⟨text, semicolon, rfl, by decide, by simp⟩

theorem isTail_split (htail : IsTail tail qs) :
    tail = cover (qs.rdropWhile isWhite) ++ cover (qs.rtakeWhile isWhite) ∧
      ∀ c ∈ cover (qs.rtakeWhile isWhite), isSpace c = true := by
  refine ⟨?_, fun c hc => ?_⟩
  · rw [← cover_append, List.rdropWhile_append_rtakeWhile, htail.scans.cover]
  · rw [cover, List.mem_flatten] at hc
    obtain ⟨w, hw, hcw⟩ := hc
    obtain ⟨l, hl, rfl⟩ := List.mem_map.mp hw
    have hmem : l ∈ qs := (List.rtakeWhile_suffix isWhite qs).subset hl
    exact isSpace_of_white (lexes_spelled htail.scans l hmem) (List.mem_rtakeWhile_imp hl) c hcw

/-- White space behind a statement: what is sent to the parser is the statement. -/
theorem normaliseSql_white (h : Scanned parser text st ps ts) (htail : IsTail tail qs)
    (hasSemi : Bool) (hwhite : qs.rdropWhile isWhite = []) :
    normaliseSql (front text hasSemi ++ tail) = text ++ [semicolon] := by
  obtain ⟨hsplit, hspace⟩ := isTail_split htail
  obtain ⟨w, c, hw, hc, hsemi⟩ := front_last h hasSemi
  have htrim : (front text hasSemi ++ tail).rdropWhile isSpace = front text hasSemi := by
    rw [hsplit, hwhite, cover_nil, List.nil_append, rdropWhile_append_pos hspace, hw,
      rdropWhile_concat_last hc]
  unfold normaliseSql
  simp only [htrim]
  cases hasSemi with
  | true =>
    rw [if_neg (by simp [front])]
    rfl
  | false =>
    have hne : front text false ≠ [] := by rw [hw]; simp
    have hlast : (front text false).getLast? ≠ some semicolon := by
      rw [hw, List.getLast?_concat]
      exact fun heq => Bool.false_ne_true (hsemi.mp (Option.some.inj heq))
    rw [if_pos ⟨hne, hlast⟩, front]
    simp

/-- Comments behind a statement: what is sent is the body up to the last comment, and
maybe a `;`. -/
theorem normaliseSql_comment (htail : IsTail tail qs) (hasSemi : Bool) {v : List Lexeme}
    {q : Lexeme} (hcore : qs.rdropWhile isWhite = v ++ [q]) :
    isComment q = true ∧ ∃ x, (x = [] ∨ x = [semicolon]) ∧ (q.1 = .blockComment → x = [semicolon]) ∧
      normaliseSql (front text hasSemi ++ tail) =
        front text hasSemi ++ cover v ++ (q.2.rdropWhile isSpace ++ x) := by
  obtain ⟨hsplit, hspace⟩ := isTail_split htail
  have hmem : q ∈ qs := by
    have hprefix := (List.rdropWhile_prefix isWhite qs).subset
    exact hprefix (by rw [hcore]; simp)
  have hcomment : isComment q = true := by
    refine (htail.gaps q hmem).resolve_left fun hwhite => ?_
    have hlast := List.rdropWhile_last_not isWhite qs (by rw [hcore]; simp)
    simp only [hcore, List.getLast_concat] at hlast
    exact hlast hwhite
  refine ⟨hcomment, ?_⟩
  have hspelled := lexes_spelled htail.scans q hmem
  -- the first character of a comment stays, so trimming ends inside the comment
  have htrimmed : q.2.rdropWhile isSpace ≠ [] := by
    intro hnil
    have hall := List.rdropWhile_eq_nil_iff.mp hnil
    have hmarks : isSpace dash = false ∧ isSpace slash = false := by decide
    rcases comment_spelling hspelled hcomment with ⟨-, b, hb, -⟩ | ⟨-, b, hb, -⟩
    · exact Bool.false_ne_true (hmarks.1.symm.trans (hall dash (by rw [hb]; simp)))
    · exact Bool.false_ne_true (hmarks.2.symm.trans (hall slash (by rw [hb]; simp)))
  have htrim : (front text hasSemi ++ tail).rdropWhile isSpace =
      front text hasSemi ++ cover v ++ q.2.rdropWhile isSpace := by
    rw [hsplit, hcore, cover_append, cover_cons, cover_nil, List.append_nil, ← List.append_assoc,
      rdropWhile_append_pos hspace, ← List.append_assoc, rdropWhile_append_neg htrimmed]
  unfold normaliseSql
  simp only [htrim]
  by_cases hlast : (front text hasSemi ++ cover v ++ q.2.rdropWhile isSpace).getLast? = some semicolon
  · refine ⟨[], .inl rfl, fun hblock => ?_, ?_⟩
    · rcases comment_spelling hspelled hcomment with ⟨hline, -⟩ | ⟨-, b, hb, hskip⟩
      · exact absurd (hline.symm.trans hblock) nofun
      · obtain ⟨a, ha⟩ := skipComment_last (hskip [])
        rw [List.append_nil] at ha
        have hwhole : q.2 = (slash :: asterisk :: a) ++ [slash] := by rw [hb, ha]; rfl
        have hslash : isSpace slash = false := by decide
        rw [hwhole, rdropWhile_concat_last hslash, ← List.append_assoc, List.getLast?_concat] at hlast
        have hne : slash ≠ semicolon := by decide
        exact absurd (Option.some.inj hlast) hne
    · rw [if_neg fun h => h.2 hlast, List.append_nil]
  · refine ⟨[semicolon], .inr rfl, fun _ => rfl, ?_⟩
    rw [if_pos ⟨List.append_ne_nil_of_right_ne_nil _ htrimmed, hlast⟩, List.append_assoc]

/-- What the scanner sees: the statement, the comments before the one that decides, and
that one with what is put behind it. -/
theorem cString_normaliseSql (h : Scanned parser text st ps ts) (htail : IsTail tail qs)
    (hasSemi : Bool) {v : List Lexeme} {q : Lexeme} (hcore : core qs = v ++ [q]) :
    isComment q = true ∧ (∃ w, qs = v ++ q :: w) ∧ ∃ ending, Ending q ending ∧
      cString (normaliseSql (front text hasSemi ++ tail)) =
        front text hasSemi ++ (cover v ++ ending) := by
  have hfront : ∀ c ∈ front text hasSemi, c ≠ 0 := by
    intro c hc
    have hsemi : semicolon ≠ 0 := by decide
    rcases List.mem_append.mp hc with hc | hc
    · exact h.noNul c hc
    · cases hasSemi with
      | false => exact absurd hc List.not_mem_nil
      | true => exact List.mem_singleton.mp hc ▸ hsemi
  have hsplit : qs = qs.rdropWhile isWhite ++ qs.rtakeWhile isWhite :=
    List.rdropWhile_append_rtakeWhile.symm
  rcases List.eq_nil_or_concat' (qs.rdropWhile isWhite) with hnil | ⟨init, l, hinit⟩
  · rw [core, hnil] at hcore
    exact absurd hcore.symm (by simp [visible])
  obtain ⟨hcomment, x, hx, hblock, hnormal⟩ := normaliseSql_comment htail hasSemi hinit
  have hmem : ∀ p ∈ qs.rdropWhile isWhite, p ∈ qs := fun p hp =>
    (List.rdropWhile_prefix isWhite qs).subset hp
  by_cases hzero : ∃ p ∈ qs.rdropWhile isWhite, (0 : UInt8) ∈ p.2
  · obtain ⟨v', q', w, hqs, hvisible, hq, hv⟩ := exists_visible hzero
    rw [core, hvisible] at hcore
    obtain ⟨rfl, hqq⟩ := List.append_inj' hcore rfl
    obtain rfl := List.singleton_inj.mp hqq
    have hin : q' ∈ qs := hmem q' (by rw [hqs]; simp)
    have hspelled := lexes_spelled htail.scans q' hin
    have hcomment' : isComment q' = true := by
      refine (htail.gaps q' hin).resolve_left fun hwhite => ?_
      have hspace := isSpace_of_white hspelled hwhite 0 hq
      have hnot : isSpace 0 = false := by decide
      exact Bool.false_ne_true (hnot.symm.trans hspace)
    refine ⟨hcomment', ⟨w ++ qs.rtakeWhile isWhite, ?_⟩, cString q'.2,
      ending_cut hspelled hcomment' hq, ?_⟩
    · conv_lhs => rw [hsplit, hqs]
      simp
    · rw [hnormal, List.append_assoc, cString_append hfront]
      congr 1
      rcases List.eq_nil_or_concat' w with rfl | ⟨w, l', rfl⟩
      · rw [hinit] at hqs
        obtain ⟨rfl, hl⟩ := List.append_inj' hqs rfl
        obtain rfl := List.singleton_inj.mp hl
        rw [cString_append (cover_ne_zero hv), cString_trimmed hq]
      · rw [hinit, ← List.cons_append, ← List.append_assoc] at hqs
        obtain ⟨rfl, -⟩ := List.append_inj' hqs rfl
        rw [cover_append, cover_cons, List.append_assoc, cString_append (cover_ne_zero hv)]
        obtain ⟨a, b, hab, hazero⟩ := List.eq_append_cons_of_mem hq
        have ha : ∀ c ∈ a, c ≠ 0 := fun c hc heq => hazero (heq ▸ hc)
        rw [hab, List.append_assoc, List.append_assoc, cString_append ha, cString_append ha]
        rfl
  · have hnone : ∀ p ∈ qs.rdropWhile isWhite, (0 : UInt8) ∉ p.2 := fun p hp hin =>
      hzero ⟨p, hp, hin⟩
    rw [core, visible_eq_self hnone, hinit] at hcore
    obtain ⟨rfl, hl⟩ := List.append_inj' hcore rfl
    obtain rfl := List.singleton_inj.mp hl
    rw [hinit] at hnone hmem hsplit
    have hspelled := lexes_spelled htail.scans l (hmem l (by simp))
    refine ⟨hcomment, ⟨qs.rtakeWhile isWhite, by conv_lhs => rw [hsplit]; simp⟩, _,
      ending_whole hspelled hcomment (hnone l (by simp)) hx hblock, ?_⟩
    rw [hnormal, List.append_assoc]
    refine cString_eq_self fun c hc => ?_
    rcases List.mem_append.mp hc with hc | hc
    · exact hfront c hc
    rcases List.mem_append.mp hc with hc | hc
    · exact cover_ne_zero (fun p hp => hnone p (by simp [hp])) c hc
    rcases List.mem_append.mp hc with hc | hc
    · rintro rfl
      exact hnone l (by simp) (mem_rdropWhile hc)
    · have hsemi : semicolon ≠ 0 := by decide
      rcases hx with rfl | rfl
      · exact absurd hc List.not_mem_nil
      · exact List.mem_singleton.mp hc ▸ hsemi

/-! ### Its tokens -/

theorem ending_head {q : Lexeme} {ending : Str} (h : Spelled q.1 q.2) (hcomment : isComment q = true)
    (hending : Ending q ending) :
    (ending.head? = some dash ∨ ending.head? = some slash) ∧ ending.head? = q.2.head? := by
  rcases comment_spelling h hcomment with ⟨hq, b, hb, -⟩ | ⟨hq, b, hb, -⟩
  · rcases hending with ⟨-, e, rfl, -⟩ | ⟨hblock, -⟩ | ⟨hblock, -⟩
    · exact ⟨.inl rfl, by rw [hb]; rfl⟩
    · exact absurd (hq.symm.trans hblock) nofun
    · exact absurd (hq.symm.trans hblock) nofun
  · rcases hending with ⟨hline, -⟩ | ⟨-, -, rfl⟩ | ⟨-, -, e, rfl, -⟩
    · exact absurd (hq.symm.trans hline) nofun
    · exact ⟨.inr (by rw [hb]; rfl), by rw [hb]; rfl⟩
    · exact ⟨.inr rfl, by rw [hb]; rfl⟩

/-- Comments before the one that decides scan as they did. -/
theorem lexes_before (htail : IsTail tail qs) {v w : List Lexeme} {q : Lexeme}
    (hqs : qs = v ++ q :: w) (hcomment : isComment q = true) {ending : Str}
    (hending : Ending q ending) {es : List Lexeme} (hes : Lexes sqlRules ending es) :
    Lexes sqlRules (cover v ++ ending) (v ++ es) := by
  have hspelled := lexes_spelled htail.scans
  obtain ⟨hhead, hsame⟩ := ending_head (hspelled q (by simp [hqs])) hcomment hending
  have hscans : Lexes sqlRules (cover v ++ cover (q :: w)) (v ++ q :: w) := by
    have h := htail.scans
    rwa [← htail.scans.cover, hqs, cover_append] at h
  refine lexes_glue hes (fun c hc => ?_) hscans (fun p hp => ?_) fun p hp => ?_
  · rcases hhead with h | h
    · exact Option.some.inj (h.symm.trans hc) ▸ breaks_marks.1
    · exact Option.some.inj (h.symm.trans hc) ▸ breaks_marks.2.1
  · exact settled_gap (hspelled p (by simp [hqs, hp])) (htail.gaps p (by simp [hqs, hp]))
  · obtain ⟨v, rfl⟩ := List.getLast?_eq_some_iff.mp hp
    obtain ⟨rule, x⟩ := p
    have hmarks : (dash ≠ byte ' ' ∧ dash ≠ tab ∧ dash ≠ newline) ∧
        slash ≠ byte ' ' ∧ slash ≠ tab ∧ slash ≠ newline := by decide
    have hchar : ∀ c, ending.head? = some c → c ≠ byte ' ' ∧ c ≠ tab ∧ c ≠ newline := by
      intro c hc
      rcases hhead with h | h
      · exact Option.some.inj (h.symm.trans hc) ▸ hmarks.1
      · exact Option.some.inj (h.symm.trans hc) ▸ hmarks.2
    cases rule with
    | blank => exact fun c hc => ⟨(hchar c hc).1, (hchar c hc).2.1⟩
    | other => exact fun hc => (hchar newline hc).2.2 rfl
    | lineComment =>
      -- a line comment would have gone on over the comment behind it
      have hlast : Lexes sqlRules (x ++ cover (q :: w)) ((.lineComment, x) :: q :: w) := by
        rw [List.append_assoc] at hscans
        have h := (Lexes.append hscans).2
        rwa [List.singleton_append, cover_cons] at h
      generalize htext : x ++ cover (q :: w) = z at hlast
      cases hlast with
      | cons hmunch hnext =>
        have hend := lineComment_end hmunch (spelled_of_ruleFor (longest_some.mp hmunch).2.2.1)
        have hrest := hnext.cover
        rw [cover_cons] at hrest
        rw [← hrest] at hend
        have hne := piece_ne_nil hnext
        obtain ⟨d, y, hd⟩ := List.exists_cons_of_ne_nil hne
        rw [hd] at hend hsame
        have hnewline : d = newline := by
          rcases hend with h | h
          · exact absurd h (List.cons_ne_nil _ _)
          · exact Option.some.inj h
        exact absurd hnewline (hchar d hsame).2.2
    | _ => exact trivial

/-- The statement, with its `;` if it has one, scans as it did. -/
theorem lexes_front (h : Scanned parser text st ps ts) (hasSemi : Bool) {rest : Str}
    {rs : List Lexeme} (hrest : Lexes sqlRules rest rs)
    (hbreak : ∀ c, rest.head? = some c → Breaks c) :
    Lexes sqlRules (front text hasSemi ++ rest)
      (ps ++ (if hasSemi then [semiLexeme] else []) ++ rs) := by
  have hps : Lexes sqlRules (cover ps ++ [semicolon]) (ps ++ [semiLexeme]) := by
    rw [h.cover]
    exact h.scans
  have hglue : ∀ {z : Str} {zs : List Lexeme}, Lexes sqlRules z zs →
      (∀ c, z.head? = some c → Breaks c) → Lexes sqlRules (text ++ z) (ps ++ zs) := by
    intro z zs hz hzbreak
    rw [← h.cover]
    refine lexes_glue hz hzbreak hps (fun p hp => .inl (clean_of_tokens h.tokens p hp)) fun p hp => ?_
    obtain ⟨p', t, hp', ht⟩ := h.last
    rw [hp] at hp'
    cases hp'
    obtain ⟨rule, x⟩ := p
    cases rule with
    | blank | lineComment | other => cases ht
    | _ => exact trivial
  cases hasSemi with
  | false =>
    rw [front]
    simpa using hglue hrest hbreak
  | true =>
    have hsemi : Lexes sqlRules ([semicolon] ++ rest) ([semiLexeme] ++ rs) := by
      have hone : Lexes sqlRules (cover [semiLexeme] ++ []) ([semiLexeme] ++ []) := lexes_semicolon
      refine lexes_glue hrest hbreak hone (fun p hp => .inl ?_) fun p hp => ?_
      · rw [List.mem_singleton.mp hp]
        nofun
      · obtain rfl := Option.some.inj hp
        exact trivial
    have hfirst : ∀ c, ([semicolon] ++ rest).head? = some c → Breaks c := fun c hc =>
      Option.some.inj hc ▸ breaks_marks.2.2
    have hall := hglue hsemi hfirst
    rw [front, List.append_assoc, List.append_assoc]
    exact hall

theorem tokens_front (h : Scanned parser text st ps ts) (hasSemi : Bool) (rs : List Lexeme) :
    tokens (ps ++ (if hasSemi then [semiLexeme] else []) ++ rs) =
      (tokens rs).map ((ts ++ if hasSemi then [semiToken] else []) ++ ·) := by
  refine tokens_append_ok ?_ rs
  cases hasSemi with
  | false => simpa using h.tokens
  | true =>
    rw [if_pos rfl, tokens_append_ok h.tokens]
    rfl

theorem tokens_gaps {v : List Lexeme} (hv : ∀ p ∈ v, isWhite p = true ∨ isComment p = true)
    (hspelled : ∀ p ∈ v, Spelled p.1 p.2) :
    ((∀ p ∈ v, p.1 ≠ .other) → tokens v = .ok []) ∧
      ((∃ p ∈ v, p.1 = .other) → ∃ e, tokens v = .error e) := by
  induction v with
  | nil => exact ⟨fun _ => rfl, fun ⟨p, hp, _⟩ => absurd hp List.not_mem_nil⟩
  | cons p v ih =>
    rw [List.forall_mem_cons] at hv hspelled
    obtain ⟨ihok, iherr⟩ := ih hv.2 hspelled.2
    constructor
    · intro hall
      rw [List.forall_mem_cons] at hall
      rw [tokens, action_gap hv.1 hall.1, ihok hall.2]
      rfl
    · rintro ⟨q, hq, hother⟩
      by_cases hp : p.1 = .other
      · obtain ⟨rule, x⟩ := p
        obtain rfl : rule = .other := hp
        exact ⟨_, rfl⟩
      · have hq' : q ∈ v := (List.mem_cons.mp hq).resolve_left fun heq => hp (heq ▸ hother)
        obtain ⟨e, he⟩ := iherr ⟨q, hq', hother⟩
        refine ⟨e, ?_⟩
        rw [tokens, action_gap hv.1 hp, he]
        rfl

/-- The tokens of the end of the text: none of a line comment, a `;` behind a block
comment, an error where a block comment is cut off. -/
theorem ending_tokens (htail : IsTail tail qs) {v w : List Lexeme} {q : Lexeme}
    (hqs : qs = v ++ q :: w) {ending : Str} (hending : Ending q ending) :
    ∃ es, Lexes sqlRules ending es ∧
      ((q.1 = .lineComment ∧ tokens es = .ok []) ∨
        (q.1 = .blockComment ∧ (0 : UInt8) ∉ q.2 ∧ tokens es = .ok [semiToken]) ∨
        (q.1 = .blockComment ∧ (0 : UInt8) ∈ q.2 ∧ ∃ e, tokens es = .error e)) := by
  rcases hending with ⟨hq, b, rfl, hline⟩ | ⟨hq, hzero, rfl⟩ | ⟨hq, hzero, b, rfl, hb⟩
  · have hspelled : Spelled .lineComment (dash :: dash :: b) := ⟨b, rfl, hline⟩
    exact ⟨_, lexes_single (List.cons_ne_nil _ _) (ruleFor_lineComment hspelled), .inl ⟨hq, rfl⟩⟩
  · have hscans : Lexes sqlRules (cover [q] ++ cover w) ([q] ++ w) := by
      have h := htail.scans
      rw [hqs] at h
      have hrest := (Lexes.append h).2
      rwa [← List.singleton_append, cover_append] at hrest
    obtain ⟨rule, x⟩ := q
    obtain rfl : rule = .blockComment := hq
    have hglue : Lexes sqlRules (cover [(LexRule.blockComment, x)] ++ [semicolon])
        ([(LexRule.blockComment, x)] ++ [semiLexeme]) := by
      refine lexes_glue lexes_semicolon (fun c hc => ?_) hscans (fun p hp => .inl ?_) fun p hp => ?_
      · exact Option.some.inj hc ▸ breaks_marks.2.2
      · rw [List.mem_singleton.mp hp]
        nofun
      · obtain rfl := Option.some.inj hp
        exact trivial
    rw [cover_cons, cover_nil, List.append_nil] at hglue
    exact ⟨_, hglue, .inr (.inl ⟨rfl, hzero, rfl⟩)⟩
  · obtain ⟨ls, hls⟩ := lexes_unclosed hb
    exact ⟨_, hls, .inr (.inr ⟨hq, hzero, _, rfl⟩)⟩

theorem query_eq (parser : Parser) {source : Str} {c : UInt8} (hc : c ∈ cString source)
    (hspace : isSpace c = false) {ls : List Lexeme} (hls : Lexes sqlRules (cString source) ls) :
    parser.query source = match tokens ls with
      | .error _ => none
      | .ok ts => parser.parse ts := by
  have heof : Parser.eof source = false := by
    rw [Parser.eof, List.all_eq_false]
    exact ⟨c, (List.takeWhile_prefix _).subset hc, by rw [hspace]; exact Bool.false_ne_true⟩
  rw [Parser.query, heof, lex, lexemes_eq_some.mpr hls]
  rfl

/-- A statement without its `;`, or with another one behind it, is not accepted. -/
theorem Scanned.parse_others (h : Scanned parser text st ps ts) :
    parser.parse ts ≠ some st ∧ parser.parse (ts ++ [semiToken, semiToken]) ≠ some st := by
  constructor
  · intro hparse
    obtain ⟨us, u, rfl, hu, -⟩ := parser.parse_semi hparse
    exact h.noSemi u (by simp) hu
  · intro hparse
    obtain ⟨us, u, heq, -, hus⟩ := parser.parse_semi hparse
    rw [show ts ++ [semiToken, semiToken] = (ts ++ [semiToken]) ++ [semiToken] by simp] at heq
    obtain ⟨rfl, -⟩ := List.append_inj' heq rfl
    exact hus semiToken (by simp) rfl

theorem core_eq_nil (hcore : core qs = []) : qs.rdropWhile isWhite = [] := by
  cases htrim : qs.rdropWhile isWhite with
  | nil => rfl
  | cons q w =>
    rw [core, htrim, visible] at hcore
    split at hcore
    · exact absurd hcore (List.cons_ne_nil _ _)
    · exact absurd hcore (List.cons_ne_nil _ _)

end Tail

/-- A body that is the text of one statement, a `;` or none, white space and complete
comments: once completed it is read as that statement exactly when the last comment
the scanner sees goes with the `;`. -/
theorem query_normaliseSql_iff (parser : Parser) {text tail : Str} {st : Statement}
    {qs : List Lexeme} (htext : StatementText parser text st) (htail : IsTail tail qs)
    (hasSemi : Bool) :
    parser.query (normaliseSql (front text hasSemi ++ tail)) = some st ↔ Harmless hasSemi qs := by
  obtain ⟨ps, ts, h⟩ := htext
  obtain ⟨w, c, hw, hspace, -⟩ := front_last h hasSemi
  rcases List.eq_nil_or_concat' (core qs) with hcore | ⟨v, q, hcore⟩
  · have hharmless : Harmless hasSemi qs := by
      rw [Harmless, hcore]
      trivial
    refine iff_of_true ?_ hharmless
    have hwhole : cString (text ++ [semicolon]) = text ++ [semicolon] := by
      have hsemi : semicolon ≠ 0 := by decide
      refine cString_eq_self fun c hc => ?_
      exact (List.mem_append.mp hc).elim (h.noNul c) fun hc => List.mem_singleton.mp hc ▸ hsemi
    have hlex := h.scans
    rw [← hwhole] at hlex
    have hsemi : isSpace semicolon = false := by decide
    rw [normaliseSql_white h htail hasSemi (core_eq_nil hcore),
      query_eq parser (by rw [hwhole]; simp) hsemi hlex, tokens_append_ok h.tokens]
    exact h.parses
  · obtain ⟨hcomment, ⟨more, hqs⟩, ending, hending, hseen⟩ :=
      cString_normaliseSql h htail hasSemi hcore
    obtain ⟨es, hes, hkinds⟩ := ending_tokens htail hqs hending
    have hspelled := lexes_spelled htail.scans
    have hbefore := lexes_before htail hqs hcomment hending hes
    have hgaps : ∀ p ∈ v, isWhite p = true ∨ isComment p = true := fun p hp =>
      htail.gaps p (by simp [hqs, hp])
    have hbreak : ∀ c, (cover v ++ ending).head? = some c → Breaks c := by
      intro c hc
      cases v with
      | nil =>
        rcases (ending_head (hspelled q (by simp [hqs])) hcomment hending).1 with hhead | hhead
        · exact Option.some.inj (hhead.symm.trans hc) ▸ breaks_marks.1
        · exact Option.some.inj (hhead.symm.trans hc) ▸ breaks_marks.2.1
      | cons p v =>
        have hfirst := htail.scans
        rw [hqs, List.cons_append] at hfirst
        obtain ⟨d, y, hd⟩ := List.exists_cons_of_ne_nil (piece_ne_nil hfirst)
        rw [cover_cons, hd] at hc
        exact breaks_gap (hspelled p (by simp [hqs])) (hgaps p List.mem_cons_self)
          (by rw [hd]; exact hc)
    have hlex := lexes_front h hasSemi hbefore hbreak
    rw [← hseen] at hlex
    rw [query_eq parser (by rw [hseen, hw]; simp) hspace hlex, tokens_front h hasSemi]
    have hharmless : Harmless hasSemi qs ↔ (∀ p ∈ v, p.1 ≠ .other) ∧
        if hasSemi then q.1 = .lineComment else q.1 = .blockComment ∧ (0 : UInt8) ∉ q.2 := by
      have hother : q.1 ≠ .other := fun heq => by simp [isComment, heq] at hcomment
      rw [Harmless, hcore, List.getLast?_concat, List.forall_mem_append]
      simp [hother]
    rw [hharmless]
    obtain ⟨hknown, hunknown⟩ := tokens_gaps hgaps fun p hp => hspelled p (by simp [hqs, hp])
    by_cases hall : ∀ p ∈ v, p.1 ≠ .other
    · rw [tokens_append_ok (hknown hall)]
      rcases hkinds with ⟨hq, htokens⟩ | ⟨hq, hzero, htokens⟩ | ⟨hq, hzero, e, htokens⟩
      · rw [htokens]
        cases hasSemi with
        | false =>
          refine iff_of_false ?_ fun hgood => ?_
          · simpa [Except.map] using h.parse_others.1
          · exact absurd (hq.symm.trans hgood.2.1) nofun
        | true =>
          refine iff_of_true ?_ ⟨hall, hq⟩
          simpa [Except.map] using h.parses
      · rw [htokens]
        cases hasSemi with
        | false =>
          refine iff_of_true ?_ ⟨hall, hq, hzero⟩
          simpa [Except.map] using h.parses
        | true =>
          refine iff_of_false ?_ fun hgood => ?_
          · simpa [Except.map] using h.parse_others.2
          · exact absurd (hq.symm.trans hgood.2) nofun
      · rw [htokens]
        refine iff_of_false nofun fun hgood => ?_
        cases hasSemi with
        | false => exact hgood.2.2 hzero
        | true => exact absurd (hq.symm.trans hgood.2) nofun
    · obtain ⟨p, hp, hother⟩ : ∃ p ∈ v, p.1 = .other := by
        by_contra hnone
        exact hall fun p hp heq => hnone ⟨p, hp, heq⟩
      obtain ⟨e, he⟩ := hunknown ⟨p, hp, hother⟩
      rw [tokens_append_error he]
      exact iff_of_false nofun fun hgood => hall hgood.1

/-! ### A parser of USE statements -/

open Nonterminal TokenKind in
/-- `USE name ;` is a sentence. -/
theorem useStmt_sentence : [use, ident, semi] ∈ sqlGrammar.language := by
  refine (sqlGrammar.mem_language_iff _).mpr ?_
  have hprogram : ⟨program, [stmt, semi]⟩ ∈ productions := by decide +kernel
  have hstmt : ⟨stmt, [useStmt]⟩ ∈ productions := by decide +kernel
  have huse : ⟨useStmt, [use, identifier]⟩ ∈ productions := by decide +kernel
  have hident : ⟨identifier, [ident]⟩ ∈ productions := by decide +kernel
  refine (produces hprogram [] []).trans_derives ?_
  refine (produces hstmt [] [.terminal semi]).trans_derives ?_
  refine (produces huse [] [.terminal semi]).trans_derives ?_
  exact (produces hident [.terminal use] [.terminal semi]).single

/-- The parser on USE statements with plain names. -/
def useParser : Parser where
  parse
    | [⟨.use, _⟩, ⟨.ident, name⟩, ⟨.semi, _⟩] => some (.use name)
    | _ => none
  sentence := by
    intro ts st h
    split at h
    · exact useStmt_sentence
    · cases h

/-- `use a` -/
def useText : Str := Str.ofString "use a"

theorem useText_statement : StatementText useParser useText (.use (Str.ofString "a")) := by
  refine ⟨[(.word, Str.ofString "use"), (.blank, Str.ofString " "), (.word, Str.ofString "a")],
    [⟨.use, Str.ofString "use"⟩, ⟨.ident, Str.ofString "a"⟩], ⟨by decide +kernel, ?_, by decide +kernel, ?_, rfl⟩⟩
  · exact lexemes_eq_some.mp (by decide +kernel)
  · exact ⟨_, _, rfl, rfl⟩

theorem isTail_dashes : IsTail (Str.ofString "--") [(.lineComment, Str.ofString "--")] where
  scans := lexemes_eq_some.mp (by decide +kernel)
  gaps := by
    intro q hq
    rw [List.mem_singleton.mp hq]
    exact .inr rfl

/-- `use a;--` is read as the statement: the `;` that is added is part of the comment. -/
theorem query_normaliseSql_iff_dashes :
    useParser.query (normaliseSql (front useText true ++ Str.ofString "--")) =
      some (.use (Str.ofString "a")) :=
  (query_normaliseSql_iff useParser useText_statement isTail_dashes true).mpr (by decide)

/-- `use a--` is not: for the same reason it stays without a `;`. -/
theorem not_query_normaliseSql : ¬ ∀ (parser : Parser) (text tail : Str) (st : Statement)
    (qs : List Lexeme) (hasSemi : Bool), StatementText parser text st → IsTail tail qs →
      parser.query (normaliseSql (front text hasSemi ++ tail)) = some st := by
  intro hall
  have hquery := hall useParser useText _ _ _ false useText_statement isTail_dashes
  have hnone : (useParser.query (normaliseSql (front useText false ++ Str.ofString "--"))).isSome =
      false := by decide +kernel
  rw [hquery] at hnone
  cases hnone

end CwDb.Net

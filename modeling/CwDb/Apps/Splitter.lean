import CwDb.Sql.Pieces

/-! Cutting a stream of SQL into statements.

Both programs read characters until a `;` that is neither in a string literal nor
in a comment. The automaton has four states and looks one character ahead; it is
written twice in the source, in `StreamSplitter::next` and in the client's loop,
and once here.

`fragments_agree` compares it with the scanner: on a text that scans without error
the automaton is back in its first state after every piece of the scanner's, or at
the end of a line comment where it makes no difference, so both see the same `;`. -/
namespace CwDb.Apps
open Sql Foundation.LongestMatch

/-! ### The automaton -/

inductive SplitState where
  | code
  | string
  | lineComment
  | blockComment
  deriving DecidableEq, Repr

/-- After a character: on to a state, or on to a state with the next character taken
as well, or the end of a statement. -/
inductive Move where
  | to (st : SplitState)
  | eat (st : SplitState)
  | done
  deriving DecidableEq, Repr

/-- `peek` is the next character, none at the end of the stream. -/
def move (st : SplitState) (c : UInt8) (peek : Option UInt8) : Move :=
  match st with
  | .code =>
    if c = quote then .to .string
    else if c = dash ∧ peek = some dash then .eat .lineComment
    else if c = slash ∧ peek = some asterisk then .eat .blockComment
    else if c = semicolon then .done
    else .to .code
  | .string =>
    if c = backslash ∧ peek.isSome then .eat .string
    else if c = quote then .to .code
    else .to .string
  | .lineComment => if c = newline then .to .code else .to .lineComment
  | .blockComment => if c = asterisk ∧ peek = some slash then .eat .code else .to .blockComment

/-- A statement and the stream behind it, or what was left at the end of the stream. -/
inductive Split where
  | stmt (out rest : Str)
  | eof (out : Str)
  deriving DecidableEq, Repr

/-- Characters read before the rest was. -/
def Split.push (w : Str) : Split → Split
  | .stmt out rest => .stmt (w ++ out) rest
  | .eof out => .eof (w ++ out)

def scan : SplitState → Str → Split
  | _, [] => .eof []
  | st, [c] =>
    match move st c none with
    | .to _ | .eat _ => .eof [c]
    | .done => .stmt [c] []
  | st, c :: d :: rest =>
    match move st c (some d) with
    | .to st => (scan st (d :: rest)).push [c]
    | .eat st => (scan st rest).push [c, d]
    | .done => .stmt [c] (d :: rest)

/-- `StreamSplitter::next`: a fragment and the stream behind it. White space at the
end of the stream is no fragment. -/
def StreamSplitter.next (stream : Str) : Option (Str × Str) :=
  match scan .code stream with
  | .stmt out rest => some (out, rest)
  | .eof out => if out.any (fun ch => !isSpace ch) then some (out, []) else none

/-- The fragments of repeated calls, until one returns false. -/
def fragmentsLoop : Nat → Str → List Str
  | 0, _ => []
  | fuel + 1, stream =>
    match StreamSplitter.next stream with
    | none => []
    | some (out, rest) => out :: fragmentsLoop fuel rest

def fragments (text : Str) : List Str := fragmentsLoop (text.length + 1) text

/-- The client's loop: it sends a statement when it is complete, and nothing at the end. -/
def sendLoop : Nat → Str → List Str
  | 0, _ => []
  | fuel + 1, stream =>
    match scan .code stream with
    | .stmt out rest => out :: sendLoop fuel rest
    | .eof _ => []

def clientSends (text : Str) : List Str := sendLoop (text.length + 1) text

/-! ### The automaton on a piece of the scanner's -/

@[simp] theorem Split.push_nil (s : Split) : s.push [] = s := by
  cases s <;> rfl

@[simp] theorem Split.push_push (v w : Str) (s : Split) : (s.push w).push v = s.push (v ++ w) := by
  cases s <;> simp [Split.push]

theorem scan_to {st st' : SplitState} {c : UInt8} {rest : Str}
    (h : move st c rest.head? = .to st') : scan st (c :: rest) = (scan st' rest).push [c] := by
  cases rest with
  | nil =>
    simp only [scan, show move st c none = .to st' from h]
    rfl
  | cons d rest => rw [scan, show move st c (some d) = .to st' from h]

theorem scan_eat {st st' : SplitState} {c d : UInt8} {rest : Str}
    (h : move st c (some d) = .eat st') : scan st (c :: d :: rest) = (scan st' rest).push [c, d] := by
  rw [scan, h]

theorem scan_semicolon (rest : Str) : scan .code (semicolon :: rest) = .stmt [semicolon] rest := by
  cases rest with
  | nil => rfl
  | cons d rest =>
    have h : move .code semicolon (some d) = .done := by
      simp [move, semicolon, quote, dash, slash, byte]
    rw [scan, h]

/-- A state the automaton stays in over a text, whatever follows. -/
def Passes (st : SplitState) (w : Str) : Prop :=
  ∀ rest, scan st (w ++ rest) = (scan st rest).push w

theorem Passes.nil (st : SplitState) : Passes st [] := fun rest => by simp

theorem Passes.append {st : SplitState} {v w : Str} (hv : Passes st v) (hw : Passes st w) :
    Passes st (v ++ w) := fun rest => by
  rw [List.append_assoc, hv, hw, Split.push_push]

theorem Passes.char {st : SplitState} {c : UInt8} (h : ∀ peek, move st c peek = .to st) :
    Passes st [c] := fun rest => scan_to (h rest.head?)

/-- Characters that mean nothing to the automaton outside of strings and comments. -/
def Plain (c : UInt8) : Prop := c ≠ quote ∧ c ≠ dash ∧ c ≠ slash ∧ c ≠ semicolon

instance (c : UInt8) : Decidable (Plain c) := inferInstanceAs (Decidable (_ ∧ _))

theorem passes_plain {w : Str} (h : ∀ c ∈ w, Plain c) : Passes .code w := by
  induction w with
  | nil => exact .nil _
  | cons c w ih =>
    obtain ⟨hq, hd, hs, hsemi⟩ := h c List.mem_cons_self
    refine Passes.append (v := [c]) (.char fun peek => ?_)
      (ih fun x hx => h x (List.mem_cons_of_mem _ hx))
    simp [move, hq, hd, hs, hsemi]

theorem passes_string {w : Str} (h : w ∈ stringBody.matches') : Passes .string w := by
  refine star_induction (motive := Passes .string) (.nil _) (fun v w hv hw => .append ?_ hw) h
  rcases mem_add.mp hv with hv | hv
  · obtain ⟨c, hc, rfl⟩ := mem_oneOf.mp hv
    simp only [Bool.and_eq_true, decide_eq_true_eq] at hc
    refine .char fun peek => ?_
    simp [move, hc.1.1, hc.1.2]
  · obtain ⟨u, hu, x, hx, rfl⟩ := mem_mul.mp hv
    rw [mem_char.mp hu]
    obtain ⟨c, hc, rfl⟩ := mem_oneOf.mp hx
    intro rest
    exact scan_eat (by simp [move])

/-- Stars that are not followed by a slash. -/
theorem scan_stars {v : Str} {d : UInt8} (hd : d ≠ slash) (hv : ∀ c ∈ v, c = asterisk)
    (rest : Str) :
    scan .blockComment (v ++ d :: rest) = (scan .blockComment (d :: rest)).push v := by
  induction v with
  | nil => simp
  | cons c v ih =>
    have hv' : ∀ c ∈ v, c = asterisk := fun x hx => hv x (List.mem_cons_of_mem _ hx)
    have hnext : (v ++ d :: rest).head? ≠ some slash := by
      cases v with
      | nil => simpa using hd
      | cons e v =>
        rw [hv' e List.mem_cons_self]
        simp [asterisk, slash, byte]
    have hmove : move .blockComment c (v ++ d :: rest).head? = .to .blockComment := by
      rw [move, if_neg fun h => hnext h.2]
    rw [List.cons_append, scan_to hmove, ih hv', Split.push_push]
    rfl

theorem passes_blockComment {w : Str}
    (h : w ∈ (oneOf (fun c => c ≠ asterisk) +
      plus (char asterisk) * oneOf fun c => c ≠ slash && c ≠ asterisk).star.matches') :
    Passes .blockComment w := by
  refine star_induction (motive := Passes .blockComment) (.nil _)
    (fun v w hv hw => .append ?_ hw) h
  rcases mem_add.mp hv with hv | hv
  · obtain ⟨c, hc, rfl⟩ := mem_oneOf.mp hv
    refine .char fun peek => ?_
    have hne : c ≠ asterisk := by simpa using hc
    simp [move, hne]
  · obtain ⟨u, hu, x, hx, rfl⟩ := mem_mul.mp hv
    obtain ⟨stars, rfl, hstars⟩ := plus_char hu
    obtain ⟨d, hd, rfl⟩ := mem_oneOf.mp hx
    simp only [Bool.and_eq_true, decide_eq_true_eq] at hd
    intro rest
    have hall : ∀ c ∈ stars ++ [asterisk], c = asterisk := by
      intro c hc
      rcases List.mem_append.mp hc with hc | hc
      · exact hstars c hc
      · exact List.mem_singleton.mp hc
    have hmove : move .blockComment d rest.head? = .to .blockComment := by simp [move, hd.2]
    rw [List.append_assoc, List.singleton_append, scan_stars hd.1 hall, scan_to hmove,
      Split.push_push]

/-! ### Pieces -/

theorem scan_lineComment {w rest : Str} (hw : ∀ c ∈ w, c ≠ newline)
    (hrest : rest = [] ∨ rest.head? = some newline) :
    scan .lineComment (w ++ rest) = (scan .code rest).push w := by
  induction w with
  | nil =>
    rcases hrest with rfl | hrest
    · rfl
    · cases rest with
      | nil => cases hrest
      | cons c rest =>
        cases hrest
        have hline : move .lineComment newline rest.head? = .to .code := by simp [move]
        have hcode : move .code newline rest.head? = .to .code := by
          simp [move, newline, quote, dash, slash, semicolon, byte]
        rw [List.nil_append, Split.push_nil, scan_to hline, scan_to hcode]
  | cons c w ih =>
    have hmove : move .lineComment c (w ++ rest).head? = .to .lineComment :=
      if_neg (hw c List.mem_cons_self)
    rw [List.cons_append, scan_to hmove, ih fun x hx => hw x (List.mem_cons_of_mem _ hx),
      Split.push_push]
    rfl

theorem push_cons (c : UInt8) (w : Str) (s : Split) : (s.push w).push [c] = s.push (c :: w) := by
  rw [Split.push_push]
  rfl

theorem plain_of_isDigit (c : UInt8) (h : isDigit c = true) : Plain c := by
  have hall : ∀ c ∈ allBytes, isDigit c = true → Plain c := by decide +kernel
  exact hall c (mem_allBytes c) h

theorem plain_of_word (c : UInt8)
    (h : (isUpper c || isLower c || isDigit c || c = byte '_') = true) : Plain c := by
  have hall : ∀ c ∈ allBytes,
      (isUpper c || isLower c || isDigit c || c = byte '_') = true → Plain c := by decide +kernel
  exact hall c (mem_allBytes c) h

/-- The rules whose matches are a single way through the automaton: it starts and ends
in `code`. -/
theorem passes_string_rule {w : Str} (h : w ∈ (char quote * stringBody * char quote).matches') :
    Passes .code w := by
  obtain ⟨u, hu, v, hv, rfl⟩ := mem_mul.mp h
  obtain ⟨q, hq, body, hbody, rfl⟩ := mem_mul.mp hu
  rw [mem_char.mp hq, mem_char.mp hv]
  intro rest
  have hopen : move .code quote (body ++ quote :: rest).head? = .to .string := by simp [move]
  have hclose : move .string quote rest.head? = .to .code := by
    simp [move, quote, backslash]
  have htext : [quote] ++ body ++ [quote] ++ rest = quote :: (body ++ quote :: rest) := by simp
  rw [htext, scan_to hopen, passes_string hbody, scan_to hclose]
  simp

theorem passes_blockComment_rule {w : Str} (h : w ∈ (char slash * char asterisk *
      (oneOf (fun c => c ≠ asterisk) +
        plus (char asterisk) * oneOf fun c => c ≠ slash && c ≠ asterisk).star *
      plus (char asterisk) * char slash).matches') : Passes .code w := by
  obtain ⟨u₁, h₁, v₁, hv₁, rfl⟩ := mem_mul.mp h
  obtain ⟨u₂, h₂, v₂, hv₂, rfl⟩ := mem_mul.mp h₁
  obtain ⟨u₃, h₃, v₃, hv₃, rfl⟩ := mem_mul.mp h₂
  obtain ⟨u₄, h₄, v₄, hv₄, rfl⟩ := mem_mul.mp h₃
  obtain ⟨stars, rfl, hstars⟩ := plus_char hv₂
  rw [mem_char.mp h₄, mem_char.mp hv₄, mem_char.mp hv₁]
  intro rest
  have hopen : move .code slash (some asterisk) = .eat .blockComment := by
    simp [move, slash, quote, dash, byte]
  have hclose : move .blockComment asterisk (some slash) = .eat .code := by simp [move]
  have htext : [slash] ++ [asterisk] ++ v₃ ++ (stars ++ [asterisk]) ++ [slash] ++ rest =
      slash :: asterisk :: (v₃ ++ (stars ++ asterisk :: slash :: rest)) := by simp
  rw [htext, scan_eat hopen, passes_blockComment hv₃, scan_stars (by decide) hstars,
    scan_eat hclose]
  simp

theorem passes_int_rule {w : Str} (h : w ∈ ((1 + char dash) * plus (oneOf isDigit)).matches') :
    Passes .code w := by
  obtain ⟨u, hu, v, hv, rfl⟩ := mem_mul.mp h
  obtain ⟨c, ds, rfl, hc, hall⟩ := plus_oneOf hv
  have hdigits : Passes .code (c :: ds) := passes_plain fun d hd => plain_of_isDigit d (hall d hd)
  rcases mem_add.mp hu with hu | hu
  · rw [RegularExpression.matches'_epsilon, Language.mem_one] at hu
    rw [hu]
    exact hdigits
  · rw [mem_char.mp hu]
    intro rest
    have hne : c ≠ dash := (plain_of_isDigit c hc).2.1
    have hothers : dash ≠ quote ∧ dash ≠ slash ∧ dash ≠ semicolon := by decide
    have hmove : move .code dash (c :: ds ++ rest).head? = .to .code := by
      simp [move, hne, hothers]
    rw [List.singleton_append, List.cons_append, scan_to hmove, hdigits, push_cons]

/-- A line comment is passed when the text ends or the line does, which is where the
longest match ends. -/
theorem scan_lineComment_rule {w rest : Str}
    (h : w ∈ (char dash * char dash * (oneOf fun c => c ≠ newline).star).matches')
    (hrest : rest = [] ∨ rest.head? = some newline) :
    scan .code (w ++ rest) = (scan .code rest).push w := by
  obtain ⟨u, hu, body, hbody, rfl⟩ := mem_mul.mp h
  obtain ⟨a, ha, b, hb, rfl⟩ := mem_mul.mp hu
  rw [mem_char.mp ha, mem_char.mp hb]
  have hopen : move .code dash (some dash) = .eat .lineComment := by
    simp [move, dash, quote, byte]
  have hline : ∀ c ∈ body, c ≠ newline := fun c hc => by
    simpa using all_of_mem_star hbody c hc
  have htext : [dash] ++ [dash] ++ body ++ rest = dash :: dash :: (body ++ rest) := by simp
  rw [htext, scan_eat hopen, scan_lineComment hline hrest]
  simp

theorem passes_newline_rule {w : Str}
    (h : w ∈ ((1 + char carriageReturn) * char newline).matches') : Passes .code w := by
  obtain ⟨u, hu, v, hv, rfl⟩ := mem_mul.mp h
  rw [mem_char.mp hv]
  rcases mem_add.mp hu with hu | hu
  · rw [RegularExpression.matches'_epsilon, Language.mem_one] at hu
    rw [hu]
    exact passes_plain (by decide +kernel)
  · rw [mem_char.mp hu]
    exact passes_plain (by decide +kernel)

theorem passes_blank_rule {w : Str}
    (h : w ∈ (plus (oneOf fun c => c = byte ' ' || c = tab)).matches') : Passes .code w := by
  obtain ⟨_, _, _, _, hall⟩ := plus_oneOf h
  refine passes_plain fun c hc => ?_
  have hc' := hall c hc
  simp only [Bool.or_eq_true, decide_eq_true_eq] at hc'
  rcases hc' with rfl | rfl
  · decide
  · decide

theorem passes_word_rule {w : Str}
    (h : w ∈ (oneOf (fun c => isUpper c || isLower c || c = byte '_') *
      (oneOf fun c => isUpper c || isLower c || isDigit c || c = byte '_').star).matches') :
    Passes .code w := by
  obtain ⟨u, hu, v, hv, rfl⟩ := mem_mul.mp h
  obtain ⟨c, hc, rfl⟩ := mem_oneOf.mp hu
  refine passes_plain fun d hd => ?_
  rcases List.mem_cons.mp hd with rfl | hd
  · refine plain_of_word d ?_
    simp only [Bool.or_eq_true, decide_eq_true_eq] at hc ⊢
    exact hc.elim (fun h => .inl (.inl h)) .inr
  · exact plain_of_word d (all_of_mem_star hv d hd)

/-- The automaton over one piece of the scanner's, unless the piece is an error or a
SEMI. -/
theorem scan_piece {text : Str} {rule : LexRule} {n : Nat}
    (h : munch sqlRules text = some (rule, n))
    (hok : ∀ e, action (rule, text.take n) ≠ .error e)
    (hsemi : rule ≠ .op [semicolon]) :
    scan .code text = (scan .code (text.drop n)).push (text.take n) := by
  obtain ⟨-, hle, hrule, hlonger⟩ := longest_some.mp h
  obtain ⟨r, hmem, hw⟩ := ruleFor_some hrule
  have hsplit : text.take n ++ text.drop n = text := List.take_append_drop n text
  have hpass : ∀ {w : Str}, Passes .code w → text.take n = w →
      scan .code text = (scan .code (text.drop n)).push (text.take n) := by
    intro w hp hw
    conv_lhs => rw [← hsplit]
    rw [hw]
    exact hp _
  rw [sqlRules, List.mem_append, List.mem_append] at hmem
  rcases hmem with (hmem | hmem) | hmem
  · simp only [List.mem_cons, List.not_mem_nil, or_false, Prod.mk.injEq] at hmem
    rcases hmem with ⟨rfl, rfl⟩ | ⟨rfl, rfl⟩ | ⟨rfl, rfl⟩ | ⟨rfl, rfl⟩ | ⟨rfl, rfl⟩ | ⟨rfl, rfl⟩ |
      ⟨rfl, rfl⟩ | ⟨rfl, rfl⟩
    · exact hpass (passes_blank_rule hw) rfl
    · exact hpass (passes_newline_rule hw) rfl
    · have hend := scan_lineComment_rule hw (lineComment_end h (spelled_of_ruleFor hrule))
      rwa [hsplit] at hend
    · exact hpass (passes_blockComment_rule hw) rfl
    · exact hpass (passes_string_rule hw) rfl
    · exact absurd rfl (hok _)
    · exact hpass (passes_int_rule hw) rfl
    · exact hpass (passes_word_rule hw) rfl
  · obtain ⟨rfl, hop⟩ := mem_opRules hmem hw
    refine hpass (passes_plain ?_) rfl
    have hplain : ∀ w ∈ opSpellings.map Str.ofString, w ≠ [semicolon] → ∀ c ∈ w, Plain c := by
      decide +kernel
    exact hplain _ hop fun heq => hsemi (by rw [heq])
  · cases List.mem_singleton.mp hmem
    exact absurd rfl (hok _)

/-! ### The whole text -/

/-- Up to the first SEMI the automaton goes along with the scanner. -/
theorem scan_pieces {ps : List Lexeme} : ∀ {text : Str} {qs : List Lexeme},
    Lexes sqlRules text (ps ++ qs) → Clean ps → NoSemi ps →
      scan .code text = (scan .code (cover qs)).push (cover ps) := by
  induction ps with
  | nil =>
    intro text qs h _ _
    rw [List.nil_append] at h
    rw [cover_nil, Split.push_nil, h.cover]
  | cons p ps ih =>
    intro text qs h hclean hsemi
    cases h with
    | cons hmunch hrest =>
      have hpiece := scan_piece hmunch (hclean _ List.mem_cons_self) (hsemi _ List.mem_cons_self)
      rw [hpiece, ih hrest (fun l hl => hclean l (List.mem_cons_of_mem _ hl))
        (fun l hl => hsemi l (List.mem_cons_of_mem _ hl)), Split.push_push]
      rfl

/-- The pieces up to the first SEMI and behind it, if there is one. -/
theorem exists_firstSemi {text : Str} {ls : List Lexeme} (h : Lexes sqlRules text ls) :
    NoSemi ls ∨ ∃ ps qs, ls = ps ++ semiLexeme :: qs ∧ NoSemi ps := by
  induction h with
  | nil => exact .inl nofun
  | @cons text rule n pieces hmunch hrest ih =>
    by_cases hsemi : rule = .op [semicolon]
    · exact .inr ⟨[], pieces, by rw [piece_semi hmunch hsemi]; rfl, nofun⟩
    · have hcons : ∀ ps : List Lexeme, NoSemi ps → NoSemi ((rule, text.take n) :: ps) := by
        intro ps hps l hl
        rcases List.mem_cons.mp hl with rfl | hl
        · exact hsemi
        · exact hps l hl
      rcases ih with hnone | ⟨ps, qs, rfl, hps⟩
      · exact .inl (hcons _ hnone)
      · exact .inr ⟨(rule, text.take n) :: ps, qs, rfl, hcons _ hps⟩

/-- A complete statement: one SEMI, and it is the last piece. -/
def EndsInSemi (p : List Lexeme) : Prop :=
  ∃ body ts, p = body ++ [semiLexeme] ∧ tokens body = .ok ts ∧ ∀ t ∈ ts, t.kind ≠ .semi

/-- Whether the last piece is a SEMI. -/
def endsInSemi (p : List Lexeme) : Bool := p.getLast? = some semiLexeme

/-- How the pieces of a text fall into fragments: complete statements, then possibly
one more fragment, then white space. -/
structure Cut (fuel : Nat) (text : Str) (ls : List Lexeme) (parts : List (List Lexeme))
    (tail : List Lexeme) : Prop where
  pieces : ls = parts.flatten ++ tail
  fragments : fragmentsLoop fuel text = parts.map cover
  tail_space : ∀ c ∈ cover tail, isSpace c = true
  complete : ∀ p ∈ parts.dropLast, EndsInSemi p
  sent_complete : ∀ p ∈ parts, endsInSemi p = true → EndsInSemi p
  sent : sendLoop fuel text = (parts.filter endsInSemi).map cover

theorem fragmentsLoop_nil (fuel : Nat) : fragmentsLoop fuel [] = [] := by
  cases fuel <;> rfl

theorem exists_cut (fuel : Nat) : ∀ {text : Str} {ls : List Lexeme} {ts : List Token},
    text.length < fuel → Lexes sqlRules text ls → tokens ls = .ok ts →
      ∃ parts tail, Cut fuel text ls parts tail := by
  induction fuel with
  | zero => exact fun h => absurd h (Nat.not_lt_zero _)
  | succ fuel ih =>
    intro text ls ts hfuel h hts
    have hclean := clean_of_tokens hts
    rcases exists_firstSemi h with hnone | ⟨ps, qs, rfl, hps⟩
    · have hscan : scan .code text = .eof text := by
        rw [scan_pieces (by rwa [List.append_nil]) hclean hnone, h.cover]
        simp [scan, Split.push]
      have hsend : sendLoop (fuel + 1) text = [] := by rw [sendLoop, hscan]
      by_cases hspace : text.any (fun ch => !isSpace ch) = true
      · have hopen : endsInSemi ls = false := by
          refine decide_eq_false fun hlast => ?_
          exact hnone semiLexeme (List.mem_of_getLast? hlast) rfl
        refine ⟨[ls], [], by simp, ?_, nofun, nofun, fun p hp hends => ?_, ?_⟩
        · rw [fragmentsLoop, StreamSplitter.next, hscan]
          simp only [if_pos hspace, fragmentsLoop_nil]
          rw [List.map_singleton, h.cover]
        · rw [List.mem_singleton.mp hp, hopen] at hends
          cases hends
        · rw [hsend, List.filter_cons_of_neg (by rw [hopen]; nofun)]
          rfl
      · refine ⟨[], ls, rfl, ?_, fun c hc => ?_, nofun, nofun, hsend⟩
        · rw [fragmentsLoop, StreamSplitter.next, hscan]
          simp only [if_neg hspace]
          rfl
        · rw [h.cover] at hc
          by_contra hcs
          exact hspace (List.any_eq_true.mpr ⟨c, hc, by simpa using hcs⟩)
    · obtain ⟨ts₁, ts₂, hts₁, hts₂, rfl⟩ := tokens_append hts
      obtain ⟨t, rest, -, hrest, -⟩ := tokens_cons.mp hts₂
      have hsplit : ps ++ semiLexeme :: qs = (ps ++ [semiLexeme]) ++ qs := by simp
      have hbehind := (hsplit ▸ h).append.2
      have hscan : scan .code text = .stmt (cover (ps ++ [semiLexeme])) (cover qs) := by
        rw [scan_pieces h hclean.of_append.1 hps, cover_cons, cover_append]
        show (scan .code (semicolon :: cover qs)).push (cover ps) = _
        rw [scan_semicolon]
        rfl
      have hshort : (cover qs).length < fuel := by
        have hlen := congrArg List.length h.cover
        rw [cover_append, cover_cons, List.length_append, List.length_append] at hlen
        have hone : semiLexeme.2.length = 1 := rfl
        omega
      obtain ⟨parts, tail, hcut⟩ := ih hshort hbehind hrest
      have hends : EndsInSemi (ps ++ [semiLexeme]) := ⟨ps, ts₁, rfl, hts₁, tokens_noSemi h hps hts₁⟩
      refine ⟨(ps ++ [semiLexeme]) :: parts, tail, ?_, ?_, hcut.tail_space, fun p hp => ?_,
        fun p hp hlast => ?_, ?_⟩
      · rw [hcut.pieces]
        simp
      · rw [fragmentsLoop, StreamSplitter.next, hscan]
        simp only [hcut.fragments]
        rfl
      · cases parts with
        | nil => cases hp
        | cons q parts =>
          rw [List.dropLast_cons_of_ne_nil (by nofun)] at hp
          rcases List.mem_cons.mp hp with rfl | hp
          · exact hends
          · exact hcut.complete p hp
      · rcases List.mem_cons.mp hp with rfl | hp
        · exact hends
        · exact hcut.sent_complete p hp hlast
      · have hlast : endsInSemi (ps ++ [semiLexeme]) = true := by
          rw [endsInSemi, List.getLast?_concat]
          exact decide_eq_true rfl
        rw [sendLoop, hscan, List.filter_cons_of_pos hlast]
        simp only [hcut.sent]
        rfl

/-- Each part of a text scans on its own as it does in the text. -/
theorem lexes_parts {parts : List (List Lexeme)} : ∀ {text : Str} {tail : List Lexeme},
    Lexes sqlRules text (parts.flatten ++ tail) → ∀ p ∈ parts, Lexes sqlRules (cover p) p := by
  induction parts with
  | nil => exact fun _ => nofun
  | cons q parts ih =>
    intro text tail h p hp
    rw [List.flatten_cons, List.append_assoc] at h
    obtain ⟨hq, hrest⟩ := h.append
    rcases List.mem_cons.mp hp with rfl | hp
    · exact hq
    · exact ih hrest p hp

/-- And the tokens of the text are those of its parts, one part after the other. -/
theorem tokens_parts {parts : List (List Lexeme)} : ∀ {tail : List Lexeme} {ts : List Token},
    tokens (parts.flatten ++ tail) = .ok ts → ∃ (slices : List (List Token)) (rest : List Token),
      parts.map tokens = slices.map .ok ∧ tokens tail = .ok rest ∧ ts = slices.flatten ++ rest := by
  induction parts with
  | nil =>
    intro tail ts h
    exact ⟨[], ts, rfl, h, rfl⟩
  | cons p parts ih =>
    intro tail ts h
    rw [List.flatten_cons, List.append_assoc] at h
    obtain ⟨ts₁, ts₂, h₁, h₂, rfl⟩ := tokens_append h
    obtain ⟨slices, rest, hslices, hrest, rfl⟩ := ih h₂
    refine ⟨ts₁ :: slices, rest, ?_, hrest, by rw [List.flatten_cons, List.append_assoc]⟩
    rw [List.map_cons, List.map_cons, h₁, hslices]

/-- On a text that scans to its end without error, the splitter and the scanner agree
on where statements end. The scanner's pieces of the text fall into parts and a tail.
The fragments are the parts, and with the tail, which is white space, they are the
text. Each fragment scans to just its part, its tokens are its slice of the text's
tokens, and each but possibly the last has one SEMI, as its last piece. What the
client sends is the fragments that end in a SEMI. -/
theorem fragments_agree {text : Str} {ts : List Token} (h : lex text = .ok ts) :
    ∃ (parts : List (List Lexeme)) (tail : List Lexeme) (slices : List (List Token)),
      lexemes sqlRules text = some (parts.flatten ++ tail) ∧
      fragments text = parts.map cover ∧
      text = (fragments text).flatten ++ cover tail ∧ (∀ c ∈ cover tail, isSpace c = true) ∧
      (∀ p ∈ parts, lexemes sqlRules (cover p) = some p) ∧
      (fragments text).map lex = slices.map .ok ∧ ts = slices.flatten ∧
      (∀ p ∈ parts.dropLast, EndsInSemi p) ∧
      clientSends text = (parts.filter endsInSemi).map cover ∧
      ∀ p ∈ parts, endsInSemi p = true → EndsInSemi p := by
  unfold lex at h
  cases hls : lexemes sqlRules text with
  | none =>
    rw [hls] at h
    cases h
  | some ls =>
    rw [hls] at h
    have hlexes := lexemes_eq_some.mp hls
    obtain ⟨parts, tail, hcut⟩ := exists_cut _ (Nat.lt_succ_self text.length) hlexes h
    have hpieces := hcut.pieces
    subst hpieces
    obtain ⟨slices, rest, hslices, hrest, rfl⟩ := tokens_parts h
    have hparts := lexes_parts hlexes
    have hnone := tokens_space (hlexes.append).2 hcut.tail_space hrest
    have hfragments : fragments text = parts.map cover := hcut.fragments
    refine ⟨parts, tail, slices, rfl, hfragments, ?_, hcut.tail_space,
      fun p hp => lexemes_eq_some.mpr (hparts p hp), ?_, by rw [hnone, List.append_nil],
      hcut.complete, hcut.sent, hcut.sent_complete⟩
    · rw [hfragments]
      conv_lhs => rw [← hlexes.cover, cover_append]
      congr 1
      rw [cover, List.map_flatten, List.flatten_flatten, List.map_map]
      rfl
    · rw [hfragments, List.map_map, ← hslices]
      refine List.map_congr_left fun p hp => ?_
      show lex (cover p) = tokens p
      rw [lex, lexemes_eq_some.mpr (hparts p hp)]

/-- The second `;` is in a comment. -/
theorem fragments_agree_comment : ∃ (parts : List (List Lexeme)) (slices : List (List Token)),
    fragments (Str.ofString "a;--;") = parts.map cover ∧
      (fragments (Str.ofString "a;--;")).map lex = slices.map .ok ∧
      slices.flatten = [⟨.ident, Str.ofString "a"⟩, ⟨.semi, Str.ofString ";"⟩] := by
  have hlex : lex (Str.ofString "a;--;") =
      .ok [⟨.ident, Str.ofString "a"⟩, ⟨.semi, Str.ofString ";"⟩] := by decide +kernel
  obtain ⟨parts, _, slices, _, hparts, _, _, _, hslices, hts, _⟩ := fragments_agree hlex
  exact ⟨parts, slices, hparts, hslices, hts.symm⟩

end CwDb.Apps

import CwDb.Core.Value
import CwDb.Foundation.LongestMatch
import CwDb.Foundation.Outcome

/-! The scanner of the SQL dialect.

`sqlRules` are the rules of `sql.l` in their order; the scanner takes the longest
match and of equally long ones the first. White space and comments give no token.
A text that no rule but the last two matches is an error, and so is a keyword in
mixed case; `lex` stops at the first.

Where a token stands (line and column) is not modelled. -/
namespace CwDb.Sql
open Foundation Foundation.LongestMatch

/-! ### Characters -/

/-- An ASCII character. -/
def byte (c : Char) : UInt8 := UInt8.ofNat c.toNat

def tab : UInt8 := 9
def newline : UInt8 := 10
def carriageReturn : UInt8 := 13
def quote : UInt8 := 34
def backslash : UInt8 := 92
def dash : UInt8 := byte '-'
def slash : UInt8 := byte '/'
def asterisk : UInt8 := byte '*'
def semicolon : UInt8 := byte ';'

def isUpper (c : UInt8) : Bool := byte 'A' ≤ c && c ≤ byte 'Z'
def isLower (c : UInt8) : Bool := byte 'a' ≤ c && c ≤ byte 'z'
def isDigit (c : UInt8) : Bool := byte '0' ≤ c && c ≤ byte '9'
def toLower (c : UInt8) : UInt8 := if isUpper c then c + 32 else c

/-- `std::isspace` in the C locale. -/
def isSpace (c : UInt8) : Bool := c = byte ' ' || (tab ≤ c && c ≤ carriageReturn)

/-! ### Rules -/

/-- The rules by what they match; `op` is the fixed spellings. -/
inductive LexRule where
  | blank
  | newline
  | lineComment
  | blockComment
  | string
  | unterminated
  | int
  | word
  | op (spelling : Str)
  | other
  deriving DecidableEq, Repr

abbrev Regexp := RegularExpression UInt8

def allBytes : List UInt8 := (List.range 256).map UInt8.ofNat

/-- A character class. -/
def oneOf (p : UInt8 → Bool) : Regexp := cls allBytes p

def char (c : UInt8) : Regexp := .char c

/-- The characters of a string literal between its quotes. -/
def stringBody : Regexp :=
  (oneOf (fun c => c ≠ quote && c ≠ backslash && c ≠ newline) +
    char backslash * oneOf fun c => c ≠ newline).star

def opSpellings : List String :=
  ["==", "=", "!=", "<=", ">=", "<", ">", "(", ")", ",", ";", ".", "*"]

def sqlRules : Rules LexRule UInt8 :=
  [(.blank, plus (oneOf fun c => c = byte ' ' || c = tab)),
   (.newline, (1 + char carriageReturn) * char newline),
   (.lineComment, char dash * char dash * (oneOf fun c => c ≠ newline).star),
   (.blockComment, char slash * char asterisk *
      (oneOf (fun c => c ≠ asterisk) +
        plus (char asterisk) * oneOf fun c => c ≠ slash && c ≠ asterisk).star *
      plus (char asterisk) * char slash),
   (.string, char quote * stringBody * char quote),
   (.unterminated, char quote * stringBody),
   (.int, (1 + char dash) * plus (oneOf isDigit)),
   (.word, oneOf (fun c => isUpper c || isLower c || c = byte '_') *
      (oneOf fun c => isUpper c || isLower c || isDigit c || c = byte '_').star)] ++
  opSpellings.map (fun op => (.op (Str.ofString op), literal (Str.ofString op))) ++
  [(.other, oneOf fun c => c ≠ newline)]

abbrev Lexeme := LexRule × Str

/-! ### Tokens -/

inductive TokenKind where
  | create | databaseKw | drop | use | table | insert | into | valueKw | update | set | where
  | delete | from | select | as | notNull | indexed | default | andKw | orKw | between | like
  | intKw | stringKw | sum | count | avg | nullKw
  | ident | stringLit | intLit
  | eqEq | eq | neq | leq | geq | lt | gt | lparen | rparen | comma | semi | dot | star
  deriving DecidableEq, Repr

/-- A token; `text` is its spelling, of a string literal what it denotes. -/
structure Token where
  kind : TokenKind
  text : Str
  deriving DecidableEq, Repr

def kwTable : List (String × TokenKind) :=
  [("create", .create), ("database", .databaseKw), ("drop", .drop), ("use", .use),
   ("table", .table), ("insert", .insert), ("into", .into), ("value", .valueKw),
   ("values", .valueKw), ("update", .update), ("set", .set), ("where", .where),
   ("delete", .delete), ("from", .from), ("select", .select), ("as", .as),
   ("not_null", .notNull), ("indexed", .indexed), ("default", .default), ("and", .andKw),
   ("or", .orKw), ("between", .between), ("like", .like), ("int", .intKw), ("integer", .intKw),
   ("string", .stringKw), ("sum", .sum), ("count", .count), ("avg", .avg), ("null", .nullKw)]

def keywordKind (lower : Str) : Option TokenKind :=
  (kwTable.find? fun kw => Str.ofString kw.1 = lower).map Prod.snd

def opKinds : List (String × TokenKind) :=
  [("==", .eqEq), ("=", .eq), ("!=", .neq), ("<=", .leq), (">=", .geq), ("<", .lt), (">", .gt),
   ("(", .lparen), (")", .rparen), (",", .comma), (";", .semi), (".", .dot), ("*", .star)]

def opKind (spelling : Str) : TokenKind :=
  ((opKinds.find? fun op => Str.ofString op.1 = spelling).map Prod.snd).getD .star

/-- The character an escape stands for. -/
def unescape (c : UInt8) : UInt8 :=
  if c = byte 'n' then newline
  else if c = byte 't' then tab
  else if c = byte 'r' then carriageReturn
  else c

/-- The loop of `decode_string`, over what is between the quotes. -/
def decodeBody : Str → Str
  | [] => []
  | [c] => [c]
  | c :: e :: rest =>
    if c = backslash then unescape e :: decodeBody rest
    else c :: decodeBody (e :: rest)

def decodeString (text : Str) : Str := decodeBody (text.tail.dropLast)

/-! ### Actions -/

def unterminatedString : Str := Str.ofString "Unterminated string literal"

/-- What the scanner makes of a piece of the text: nothing, a token, or an error. -/
def action : Lexeme → Except Str (Option Token)
  | (.blank, _) | (.newline, _) | (.lineComment, _) | (.blockComment, _) => .ok none
  | (.string, text) => .ok (some ⟨.stringLit, decodeString text⟩)
  | (.unterminated, _) => .error unterminatedString
  | (.int, text) => .ok (some ⟨.intLit, text⟩)
  | (.word, text) =>
    match keywordKind (text.map toLower) with
    | some kw =>
      if text.any isUpper && text.any isLower then
        .error (Str.ofString "Mixed case in keyword '" ++ text ++ Str.ofString "'")
      else .ok (some ⟨kw, text⟩)
    | none => .ok (some ⟨.ident, text⟩)
  | (.op spelling, text) => .ok (some ⟨opKind spelling, text⟩)
  | (.other, text) =>
    .error (Str.ofString "Unexpected character '" ++ text.take 1 ++ Str.ofString "'")

def tokens : List Lexeme → Except Str (List Token)
  | [] => .ok []
  | l :: ls => do
    let t ← action l
    let ts ← tokens ls
    return t.toList ++ ts

theorem tokens_cons {l : Lexeme} {ls : List Lexeme} {ts : List Token} :
    tokens (l :: ls) = .ok ts ↔
      ∃ t rest, action l = .ok t ∧ tokens ls = .ok rest ∧ ts = t.toList ++ rest := by
  rw [tokens, except_bind_eq_ok]
  simp only [except_bind_eq_ok]
  constructor
  · rintro ⟨t, ht, rest, hrest, hpure⟩
    exact ⟨t, rest, ht, hrest, (Except.ok.inj hpure).symm⟩
  · rintro ⟨t, rest, ht, hrest, rfl⟩
    exact ⟨t, ht, rest, hrest, rfl⟩

/-- What the scanner is given of a source: `yy_scan_string` takes a C string. -/
def cString (source : Str) : Str := source.takeWhile (· ≠ 0)

/-- The tokens of a text, to its end. -/
def lex (text : Str) : Except Str (List Token) :=
  match lexemes sqlRules text with
  | none => .error (Str.ofString "scanner jammed")
  | some ls => tokens ls

end CwDb.Sql

import CwDb.Sql.Ast
import CwDb.Sql.Lexer
import Mathlib.Computability.ContextFreeGrammar

/-! The grammar of a statement.

`productions` are those of `sql.y`, in its order. The parser bison generates from
them is not written here: a `Parser` is whatever accepts sentences of the grammar
only, and may reject some of them (an action can). All that is used of the grammar
is that `;` ends a statement and occurs nowhere else (`Parser.parse_semi`). -/
namespace CwDb.Sql

inductive Nonterminal where
  | program | stmt | identifier | tableRef | createStmt | columnDefList | colType | columnDef
  | literal | dropStmt | useStmt | insertStmt | optInsertCols | insertColList | insertRowList
  | insertRow | literalList | updateStmt | assignmentList | assignment | deleteStmt | selectStmt
  | selectItemsOrStar | selectItems | selectItem | aggregateFn | optWhere | expr | orExpr
  | andExpr | predicate | compareOp | atom
  deriving DecidableEq, Repr

abbrev GrammarSymbol := Symbol TokenKind Nonterminal

instance : Coe TokenKind GrammarSymbol := ⟨.terminal⟩
instance : Coe Nonterminal GrammarSymbol := ⟨.nonterminal⟩

open TokenKind Nonterminal

/-- The alternatives of a nonterminal. -/
def rule (input : Nonterminal) (alternatives : List (List GrammarSymbol)) :
    List (ContextFreeRule TokenKind Nonterminal) :=
  alternatives.map fun output => ⟨input, output⟩

/-- Tokens that may be names: every keyword may. -/
def identifierKinds : List TokenKind :=
  [.ident, .create, .databaseKw, .drop, .use, .table, .insert, .into, .valueKw, .update, .set,
   .where, .delete, .from, .select, .as, .notNull, .indexed, .default, .andKw, .orKw, .between,
   .like, .intKw, .stringKw, .sum, .count, .avg, .nullKw]

def productions : List (ContextFreeRule TokenKind Nonterminal) :=
  rule .program [[stmt, semi]] ++
  rule .stmt [[createStmt], [dropStmt], [useStmt], [insertStmt], [updateStmt], [deleteStmt],
    [selectStmt]] ++
  rule .identifier (identifierKinds.map fun kind => [.terminal kind]) ++
  rule .tableRef [[identifier], [identifier, dot, identifier]] ++
  rule .createStmt [[create, databaseKw, identifier],
    [create, table, tableRef, lparen, columnDefList, rparen]] ++
  rule .columnDefList [[columnDef], [columnDefList, comma, columnDef]] ++
  rule .colType [[intKw], [stringKw]] ++
  rule .columnDef [[identifier, colType], [columnDef, notNull], [columnDef, indexed],
    [columnDef, .terminal .default, literal]] ++
  rule .literal [[intLit], [stringLit], [nullKw]] ++
  rule .dropStmt [[drop, databaseKw, identifier], [drop, table, tableRef]] ++
  rule .useStmt [[use, identifier]] ++
  rule .insertStmt [[insert, into, tableRef, optInsertCols, valueKw, insertRowList]] ++
  rule .optInsertCols [[], [lparen, insertColList, rparen]] ++
  rule .insertColList [[identifier], [insertColList, comma, identifier]] ++
  rule .insertRowList [[insertRow], [insertRowList, comma, insertRow]] ++
  rule .insertRow [[lparen, literalList, rparen]] ++
  rule .literalList [[literal], [literalList, comma, literal]] ++
  rule .updateStmt [[update, tableRef, set, assignmentList, optWhere]] ++
  rule .assignmentList [[assignment], [assignmentList, comma, assignment]] ++
  rule .assignment [[identifier, eq, atom], [identifier, eqEq, atom]] ++
  rule .deleteStmt [[delete, .terminal .from, tableRef, optWhere]] ++
  rule .selectStmt [[select, selectItemsOrStar, .terminal .from, tableRef, optWhere]] ++
  rule .selectItemsOrStar [[star], [selectItems]] ++
  rule .selectItems [[selectItem], [selectItems, comma, selectItem]] ++
  rule .selectItem [[identifier], [identifier, as, identifier],
    [aggregateFn, lparen, star, rparen], [aggregateFn, lparen, star, rparen, as, identifier],
    [aggregateFn, lparen, identifier, rparen],
    [aggregateFn, lparen, identifier, rparen, as, identifier]] ++
  rule .aggregateFn [[sum], [count], [avg]] ++
  rule .optWhere [[], [.terminal .where, expr]] ++
  rule .expr [[orExpr]] ++
  rule .orExpr [[andExpr], [orExpr, orKw, andExpr]] ++
  rule .andExpr [[predicate], [andExpr, andKw, predicate]] ++
  rule .predicate [[lparen, expr, rparen], [atom, compareOp, atom],
    [atom, between, atom, andKw, atom], [atom, like, atom]] ++
  rule .compareOp [[eqEq], [eq], [neq], [lt], [gt], [leq], [geq]] ++
  rule .atom [[literal], [identifier]]

def sqlGrammar : ContextFreeGrammar TokenKind where
  NT := Nonterminal
  initial := .program
  rules := List.toFinset productions

theorem produces {r : ContextFreeRule TokenKind Nonterminal} (hr : r ∈ productions)
    (p q : List GrammarSymbol) :
    sqlGrammar.Produces (p ++ [.nonterminal r.input] ++ q) (p ++ r.output ++ q) := by
  have hmem : r ∈ productions.toFinset := List.mem_toFinset.mpr hr
  exact ⟨r, hmem, r.rewrites_of_exists_parts p q⟩

/-- A sentential form without `;`, and with no way to one. -/
def Inner (u : List GrammarSymbol) : Prop :=
  ∀ x ∈ u, x ≠ .terminal semi ∧ x ≠ .nonterminal program

theorem inner_output : ∀ r ∈ productions, r.input ≠ program → Inner r.output := by
  unfold Inner
  decide +kernel

theorem output_program : ∀ r ∈ productions, r.input = program →
    r.output = [.nonterminal stmt, .terminal semi] := by
  decide +kernel

/-- A form of a program: the start symbol, or a form that ends in the only `;` there is. -/
def ProgramForm (u : List GrammarSymbol) : Prop :=
  u = [.nonterminal program] ∨ ∃ v, u = v ++ [.terminal semi] ∧ Inner v

theorem ProgramForm.rewrites {r : ContextFreeRule TokenKind Nonterminal} (hr : r ∈ productions)
    {u w : List GrammarSymbol} (h : r.Rewrites u w) (hu : ProgramForm u) : ProgramForm w := by
  obtain ⟨p, q, rfl, rfl⟩ := h.exists_parts
  rcases hu with hu | ⟨v, hu, hv⟩
  · have hinput : r.input = program := by
      have hmem : Symbol.nonterminal r.input ∈ p ++ [.nonterminal r.input] ++ q := by simp
      rw [hu, List.mem_singleton] at hmem
      exact Symbol.nonterminal.inj hmem
    have hlength := congrArg List.length hu
    simp only [List.length_append, List.length_singleton] at hlength
    obtain rfl : p = [] := List.length_eq_zero_iff.mp (by omega)
    obtain rfl : q = [] := List.length_eq_zero_iff.mp (by omega)
    refine .inr ⟨[.nonterminal stmt], ?_, ?_⟩
    · rw [output_program r hr hinput]
      rfl
    · rw [Inner, List.forall_mem_singleton]
      exact ⟨nofun, nofun⟩
  · rcases List.eq_nil_or_concat' q with rfl | ⟨q, last, rfl⟩
    · rw [List.append_nil] at hu
      exact absurd (List.append_inj_right' hu rfl) (by simp)
    · rw [← List.append_assoc] at hu
      obtain ⟨rfl, hlast⟩ := List.append_inj' hu rfl
      have hinput : r.input ≠ program := fun heq =>
        (hv (.nonterminal r.input) (by simp)).2 (by rw [heq])
      refine .inr ⟨p ++ r.output ++ q, by rw [hlast, List.append_assoc _ q], fun x hx => ?_⟩
      rcases List.mem_append.mp hx with hx | hx
      · rcases List.mem_append.mp hx with hx | hx
        · exact hv x (by simp [hx])
        · exact inner_output r hr hinput x hx
      · exact hv x (by simp [hx])

theorem derives_program {u : List GrammarSymbol}
    (h : sqlGrammar.Derives [.nonterminal program] u) : ProgramForm u := by
  induction h with
  | refl => exact .inl rfl
  | tail _ hstep ih =>
    obtain ⟨r, hr, hrewrites⟩ := hstep
    exact ih.rewrites (List.mem_toFinset.mp hr) hrewrites

/-! ### The parser -/

/-- What bison makes of the grammar. -/
structure Parser where
  parse : List Token → Option Statement
  /-- A sequence of tokens that is accepted is a sentence. -/
  sentence : ∀ ts st, parse ts = some st → ts.map Token.kind ∈ sqlGrammar.language

namespace Parser
variable (parser : Parser)

/-- What is accepted ends in its only `;`. -/
theorem parse_semi {ts : List Token} {st : Statement} (h : parser.parse ts = some st) :
    ∃ us u, ts = us ++ [u] ∧ u.kind = semi ∧ ∀ t ∈ us, t.kind ≠ semi := by
  have hderives := (sqlGrammar.mem_language_iff _).mp (parser.sentence ts st h)
  rcases derives_program hderives with hnone | ⟨v, hv, hinner⟩
  · rcases ts with _ | ⟨t, ts⟩
    · exact absurd hnone nofun
    · exact absurd (List.cons.inj hnone).1 nofun
  · rcases List.eq_nil_or_concat' ts with rfl | ⟨us, u, rfl⟩
    · exact absurd hv.symm (List.append_ne_nil_of_right_ne_nil v (List.cons_ne_nil _ _))
    · rw [List.map_append, List.map_append, List.map_singleton, List.map_singleton] at hv
      obtain ⟨rfl, hlast⟩ := List.append_inj' hv rfl
      refine ⟨us, u, rfl, Symbol.terminal.inj (List.cons.inj hlast).1, fun t ht heq => ?_⟩
      refine (hinner (.terminal t.kind) ?_).1 (by rw [heq])
      exact List.mem_map_of_mem (List.mem_map_of_mem ht)

/-- `Parser::eof` before the first statement: nothing but white space. -/
def eof (source : Str) : Bool := source.all isSpace

/-- The statement `run_query` executes, if the source has one. Which error is reported
otherwise is left out. -/
def query (source : Str) : Option Statement :=
  if eof source then none
  else
    match lex (cString source) with
    | .error _ => none
    | .ok ts => parser.parse ts

end Parser
end CwDb.Sql

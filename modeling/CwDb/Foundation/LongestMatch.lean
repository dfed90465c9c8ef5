import Mathlib.Computability.RegularExpressions

/-! Scanners that take the longest match.

A scanner has a list of rules, each a regular expression. At every point it takes
the longest piece of the text that a rule matches, and of the rules that match it
the first. `munch` finds that piece and `Lexes` is the whole text cut that way.

What a piece is depends only on the text up to where the longest match is looked
for; so a text cut between two pieces scans on its own to the pieces on each side
(`Lexes.append`). -/
namespace Foundation.LongestMatch

variable {α ρ : Type}

abbrev Rules (ρ α : Type) := List (ρ × RegularExpression α)

/-! ### Characters of a class -/

/-- One of the alphabet's characters that have a property. -/
def cls (alphabet : List α) (p : α → Bool) : RegularExpression α :=
  (alphabet.filter p).foldr (fun c r => .char c + r) 0

/-- One or more. -/
def plus (r : RegularExpression α) : RegularExpression α := r * r.star

/-- The characters one after the other. -/
def literal : List α → RegularExpression α
  | [] => 1
  | c :: cs => .char c * literal cs

theorem mem_foldr_char {cs w : List α} :
    w ∈ (cs.foldr (fun c r => RegularExpression.char c + r) 0).matches' ↔ ∃ c ∈ cs, w = [c] := by
  induction cs with
  | nil =>
    rw [List.foldr_nil, RegularExpression.matches'_zero]
    simp
  | cons c cs ih =>
    rw [List.foldr_cons, RegularExpression.matches'_add, Language.mem_add, ih,
      RegularExpression.matches'_char]
    simp only [List.mem_cons, exists_eq_or_imp]
    exact Iff.rfl

theorem mem_cls {alphabet : List α} (hall : ∀ c, c ∈ alphabet) {p : α → Bool} {w : List α} :
    w ∈ (cls alphabet p).matches' ↔ ∃ c, p c = true ∧ w = [c] := by
  rw [cls, mem_foldr_char]
  simp only [List.mem_filter, hall, true_and]

theorem mem_literal {cs w : List α} : w ∈ (literal cs).matches' ↔ w = cs := by
  induction cs generalizing w with
  | nil =>
    rw [literal, RegularExpression.matches'_epsilon]
    exact Iff.rfl
  | cons c cs ih =>
    rw [literal, RegularExpression.matches'_mul, Language.mem_mul, RegularExpression.matches'_char]
    constructor
    · rintro ⟨_, rfl, b, hb, rfl⟩
      rw [ih.mp hb]
      rfl
    · rintro rfl
      exact ⟨[c], rfl, cs, ih.mpr rfl, rfl⟩

/-- What holds of the empty text and stays true when a piece is put in front holds of
every repetition of the pieces. -/
theorem star_induction {r : RegularExpression α} {motive : List α → Prop} (nil : motive [])
    (append : ∀ v w, v ∈ r.matches' → motive w → motive (v ++ w)) {w : List α}
    (h : w ∈ r.star.matches') : motive w := by
  rw [RegularExpression.matches'_star, Language.mem_kstar] at h
  obtain ⟨pieces, rfl, hpieces⟩ := h
  induction pieces with
  | nil => exact nil
  | cons v vs ih =>
    rw [List.flatten_cons]
    exact append v vs.flatten (hpieces v List.mem_cons_self)
      (ih fun y hy => hpieces y (List.mem_cons_of_mem _ hy))

theorem star_cons {r : RegularExpression α} {v w : List α} (hv : v ∈ r.matches')
    (hw : w ∈ r.star.matches') : v ++ w ∈ r.star.matches' := by
  rw [RegularExpression.matches'_star, Language.mem_kstar] at hw ⊢
  obtain ⟨pieces, rfl, hpieces⟩ := hw
  refine ⟨v :: pieces, rfl, fun y hy => ?_⟩
  rcases List.mem_cons.mp hy with rfl | hy
  · exact hv
  · exact hpieces y hy

/-- The text the pieces cover. -/
def cover (pieces : List (ρ × List α)) : List α := (pieces.map Prod.snd).flatten

@[simp] theorem cover_nil : cover ([] : List (ρ × List α)) = [] := rfl
@[simp] theorem cover_cons (p : ρ × List α) (ps : List (ρ × List α)) :
    cover (p :: ps) = p.2 ++ cover ps := rfl
@[simp] theorem cover_append (ps qs : List (ρ × List α)) :
    cover (ps ++ qs) = cover ps ++ cover qs := by
  rw [cover, List.map_append, List.flatten_append]
  rfl

/-! ### The longest match -/

section Munch
variable [DecidableEq α]

/-- The first rule that matches a piece. -/
def ruleFor (rules : Rules ρ α) (w : List α) : Option ρ :=
  (rules.find? fun r => r.2.rmatch w).map Prod.fst

theorem ruleFor_some {rules : Rules ρ α} {w : List α} {rule : ρ} (h : ruleFor rules w = some rule) :
    ∃ r, (rule, r) ∈ rules ∧ w ∈ r.matches' := by
  obtain ⟨⟨rule', r⟩, hfind, rfl⟩ := Option.map_eq_some_iff.mp h
  have hmatch : r.rmatch w = true :=
    List.find?_some (p := fun r : ρ × RegularExpression α => r.2.rmatch w) hfind
  exact ⟨r, List.mem_of_find?_eq_some hfind,
    (RegularExpression.rmatch_iff_matches' r w).mp hmatch⟩

theorem ruleFor_ne_none {rules : Rules ρ α} {w : List α} {rule : ρ} {r : RegularExpression α}
    (hmem : (rule, r) ∈ rules) (hw : w ∈ r.matches') : ruleFor rules w ≠ none := by
  intro hnone
  have hfind := Option.map_eq_none_iff.mp hnone
  exact List.find?_eq_none.mp hfind _ hmem ((RegularExpression.rmatch_iff_matches' r w).mpr hw)

/-- The longest piece of at most `n` characters. -/
def longest (rules : Rules ρ α) (text : List α) : Nat → Option (ρ × Nat)
  | 0 => none
  | n + 1 =>
    match ruleFor rules (text.take (n + 1)) with
    | some rule => some (rule, n + 1)
    | none => longest rules text n

def munch (rules : Rules ρ α) (text : List α) : Option (ρ × Nat) :=
  longest rules text text.length

theorem longest_some {rules : Rules ρ α} {text : List α} {rule : ρ} {n m : Nat} :
    longest rules text m = some (rule, n) ↔
      0 < n ∧ n ≤ m ∧ ruleFor rules (text.take n) = some rule ∧
        ∀ k, n < k → k ≤ m → ruleFor rules (text.take k) = none := by
  induction m with
  | zero =>
    constructor
    · nofun
    · rintro ⟨hpos, hle, -⟩
      omega
  | succ m ih =>
    rw [longest]
    cases hrule : ruleFor rules (text.take (m + 1)) with
    | some rule' =>
      constructor
      · intro h
        cases h
        exact ⟨Nat.succ_pos m, Nat.le_refl _, hrule, fun k hk hkm => by omega⟩
      · rintro ⟨hpos, hle, hn, hlonger⟩
        have heq : n = m + 1 := by
          by_contra hne
          rw [hlonger (m + 1) (by omega) (Nat.le_refl _)] at hrule
          cases hrule
        subst heq
        rw [hrule] at hn
        cases hn
        rfl
    | none =>
      show longest rules text m = some (rule, n) ↔ _
      rw [ih]
      constructor
      · rintro ⟨hpos, hle, hn, hlonger⟩
        refine ⟨hpos, by omega, hn, fun k hk hkm => ?_⟩
        rcases Nat.lt_or_ge m k with hlt | hge
        · rw [show k = m + 1 by omega]
          exact hrule
        · exact hlonger k hk hge
      · rintro ⟨hpos, hle, hn, hlonger⟩
        have hne : n ≠ m + 1 := by
          rintro rfl
          rw [hrule] at hn
          cases hn
        exact ⟨hpos, by omega, hn, fun k hk hkm => hlonger k hk (by omega)⟩

theorem longest_ne_none {rules : Rules ρ α} {text : List α} {n m : Nat} (hn : 0 < n) (hle : n ≤ m)
    (h : ruleFor rules (text.take n) ≠ none) : longest rules text m ≠ none := by
  induction m with
  | zero => exact absurd (hn.trans_le hle) (lt_irrefl _)
  | succ m ih =>
    rw [longest]
    cases hrule : ruleFor rules (text.take (m + 1)) with
    | some rule => exact Option.some_ne_none _
    | none =>
      refine ih (Nat.lt_succ_iff.mp (lt_of_le_of_ne hle ?_))
      rintro rfl
      exact h hrule

/-- A piece that ends inside a part of the text is that part's piece. -/
theorem munch_left {rules : Rules ρ α} {u v : List α} {rule : ρ} {n : Nat}
    (h : munch rules (u ++ v) = some (rule, n)) (hn : n ≤ u.length) :
    munch rules u = some (rule, n) := by
  obtain ⟨hpos, -, hrule, hlonger⟩ := longest_some.mp h
  have htake : ∀ k ≤ u.length, (u ++ v).take k = u.take k := fun k hk =>
    List.take_append_of_le_length hk
  refine longest_some.mpr ⟨hpos, hn, htake n hn ▸ hrule, fun k hk hku => ?_⟩
  rw [← htake k hku]
  exact hlonger k hk (by rw [List.length_append]; omega)

/-! ### The whole text -/

/-- A text and the pieces it is cut into, each with its rule. -/
inductive Lexes (rules : Rules ρ α) : List α → List (ρ × List α) → Prop
  | nil : Lexes rules [] []
  | cons {text : List α} {rule : ρ} {n : Nat} {pieces : List (ρ × List α)} :
      munch rules text = some (rule, n) → Lexes rules (text.drop n) pieces →
        Lexes rules text ((rule, text.take n) :: pieces)

/-- The pieces of a text; `fuel` bounds their number. -/
def lexLoop (rules : Rules ρ α) : Nat → List α → Option (List (ρ × List α))
  | _, [] => some []
  | 0, _ :: _ => none
  | fuel + 1, c :: cs =>
    match munch rules (c :: cs) with
    | none => none
    | some (rule, n) =>
      (lexLoop rules fuel ((c :: cs).drop n)).map ((rule, (c :: cs).take n) :: ·)

def lexemes (rules : Rules ρ α) (text : List α) : Option (List (ρ × List α)) :=
  lexLoop rules text.length text

theorem lexLoop_eq_some {rules : Rules ρ α} {fuel : Nat} :
    ∀ {text : List α} {pieces : List (ρ × List α)}, text.length ≤ fuel →
      (lexLoop rules fuel text = some pieces ↔ Lexes rules text pieces) := by
  induction fuel with
  | zero =>
    intro text pieces hfuel
    cases text with
    | nil =>
      constructor
      · intro h
        cases h
        exact .nil
      · intro h
        cases h with
        | nil => rfl
        | cons hmunch _ => cases hmunch
    | cons c cs => cases hfuel
  | succ fuel ih =>
    intro text pieces hfuel
    cases text with
    | nil =>
      constructor
      · intro h
        cases h
        exact .nil
      · intro h
        cases h with
        | nil => rfl
        | cons hmunch _ => cases hmunch
    | cons c cs =>
      rw [lexLoop]
      cases hmunch : munch rules (c :: cs) with
      | none =>
        constructor
        · nofun
        · intro h
          cases h with
          | cons hmunch' _ =>
            rw [hmunch] at hmunch'
            cases hmunch'
      | some rn =>
        obtain ⟨rule, n⟩ := rn
        have hpos := (longest_some.mp hmunch).1
        have hshort : ((c :: cs).drop n).length ≤ fuel := by
          rw [List.length_drop]
          omega
        constructor
        · intro h
          obtain ⟨rest, hrest, rfl⟩ := Option.map_eq_some_iff.mp h
          exact .cons hmunch ((ih hshort).mp hrest)
        · intro h
          cases h with
          | cons hmunch' hrest =>
            rw [hmunch] at hmunch'
            cases hmunch'
            show Option.map _ _ = _
            rw [(ih hshort).mpr hrest]
            rfl

theorem lexemes_eq_some {rules : Rules ρ α} {text : List α} {pieces : List (ρ × List α)} :
    lexemes rules text = some pieces ↔ Lexes rules text pieces :=
  lexLoop_eq_some (Nat.le_refl _)

theorem Lexes.cover {rules : Rules ρ α} {text : List α} {pieces : List (ρ × List α)}
    (h : Lexes rules text pieces) : cover pieces = text := by
  induction h with
  | nil => rfl
  | cons _ _ ih => rw [cover_cons, ih, List.take_append_drop]

/-- Rules that take every single character scan every text. -/
theorem exists_lexes {rules : Rules ρ α} (h : ∀ c, ruleFor rules [c] ≠ none) (text : List α) :
    ∃ pieces, Lexes rules text pieces := by
  induction hn : text.length using Nat.strong_induction_on generalizing text with
  | _ n ih =>
    cases text with
    | nil => exact ⟨[], .nil⟩
    | cons c cs =>
      have hmunch : munch rules (c :: cs) ≠ none :=
        longest_ne_none Nat.zero_lt_one (by simp) (h c)
      obtain ⟨⟨rule, k⟩, hk⟩ := Option.ne_none_iff_exists'.mp hmunch
      have hpos := (longest_some.mp hk).1
      obtain ⟨pieces, hpieces⟩ := ih ((c :: cs).drop k).length (by
        rw [← hn, List.length_drop, List.length_cons]
        omega) _ rfl
      exact ⟨_, .cons hk hpieces⟩

/-- A text cut between two pieces scans on each side to the pieces of that side. -/
theorem Lexes.append {rules : Rules ρ α} {ps qs : List (ρ × List α)} :
    ∀ {text : List α}, Lexes rules text (ps ++ qs) →
      Lexes rules (LongestMatch.cover ps) ps ∧ Lexes rules (LongestMatch.cover qs) qs := by
  induction ps with
  | nil =>
    intro text h
    exact ⟨.nil, h.cover ▸ h⟩
  | cons p ps ih =>
    intro text h
    have hcover := h.cover
    cases h with
    | @cons _ rule n _ hmunch hrest =>
      obtain ⟨hps, hqs⟩ := ih hrest
      refine ⟨?_, hqs⟩
      have hn : (text.take n).length = n :=
        List.length_take_of_le (longest_some.mp hmunch).2.1
      have hsplit : text = (text.take n ++ LongestMatch.cover ps) ++ LongestMatch.cover qs := by
        have hdrop : LongestMatch.cover (ps ++ qs) = text.drop n := hrest.cover
        rw [cover_append] at hdrop
        rw [List.append_assoc, hdrop, List.take_append_drop]
      have hleft : munch rules (text.take n ++ LongestMatch.cover ps) = some (rule, n) :=
        munch_left (hsplit ▸ hmunch) (by rw [List.length_append, hn]; omega)
      have hrest' : Lexes rules ((text.take n ++ LongestMatch.cover ps).drop n) ps := by
        rw [List.drop_left' hn]
        exact hps
      have hcons := Lexes.cons hleft hrest'
      rwa [List.take_left' hn] at hcons

end Munch
end Foundation.LongestMatch

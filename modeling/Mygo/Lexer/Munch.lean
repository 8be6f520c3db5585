import Mygo.Lexer
import Mygo.Lib.Prefix

namespace Mygo

namespace Lexer

def word (cs : Bytes) : Bytes := cs.takeWhile is_symbol_ele

def is_operator (c : UInt8) : Bool :=
  !is_symbol_head_ele c && simple_tokens.any fun t => t.spelling.head? == some c

def Begins (p : UInt8 → Bool) (cs : Bytes) : Prop := ∃ c rest, cs = c :: rest ∧ p c = true

/-- The token for a word or an operator is the longest one. -/
structure MaximalMunch (cs : Bytes) : Prop where
  keyword : Begins is_symbol_head_ele cs → ∀ t ∈ simple_tokens, t.spelling = word cs →
    Value.FromChars cs = some (.make t (word cs).length)
  symbol : Begins is_symbol_head_ele cs → (∀ t ∈ simple_tokens, t.spelling ≠ word cs) →
    Value.FromChars cs = some (.CreateSymbol (word cs).length (word cs))
  operator : Begins is_operator cs → ∀ t ∈ simple_tokens, t.spelling <+: cs →
    (∀ t' ∈ simple_tokens, t'.spelling <+: cs → t'.spelling.length ≤ t.spelling.length) →
    Value.FromChars cs = some (.make t t.spelling.length)
  nothing : Begins is_operator cs → (∀ t ∈ simple_tokens, ¬ t.spelling <+: cs) →
    Value.FromChars cs = none

/-- No keyword begins the word, unless it is the word, and a symbol ends before the range. -/
def WholeWord (cs : Bytes) : Prop :=
  (∀ t ∈ simple_tokens, t.spelling <+: word cs → t.spelling = word cs) ∧
    ((∃ t ∈ simple_tokens, t.spelling = word cs) ∨ word cs ≠ cs)

theorem ordered : simple_tokens.Pairwise fun t t' => ¬ t.spelling <+: t'.spelling := by decide

theorem spelling_ne_nil {t : TokenType} (member : t ∈ simple_tokens) : t.spelling ≠ [] := by
  revert t
  decide

theorem spelling_word {t : TokenType} (member : t ∈ simple_tokens)
    (head : t.spelling.head?.any is_symbol_head_ele = true) : ∀ c ∈ t.spelling, is_symbol_ele c = true := by
  revert t
  decide +kernel

theorem keyword_begins : ∀ t ∈ simple_tokens, ∀ t' ∈ simple_tokens,
    t.spelling.head?.any is_symbol_head_ele = true → t.spelling <+: t'.spelling →
      t.spelling = t'.spelling := by
  decide

theorem simple_type : ∀ t ∈ simple_tokens, t ≠ .Symbol := by decide

def plain (c : UInt8) : Bool := c != 13 && c != 10 && !is_blank c && !is_digit c && c != 34

theorem plain_head {c : UInt8} (head : is_symbol_head_ele c = true) : plain c = true := by
  simp [is_symbol_head_ele, plain, is_blank, is_digit, UInt8.le_iff_toNat_le, ← UInt8.toNat_inj] at head ⊢
  omega

theorem plain_operator {c : UInt8} (operator : is_operator c = true) : plain c = true := by
  have all : ∀ t ∈ simple_tokens, ∀ c ∈ t.spelling.head?, plain c = true := by
    decide +kernel
  simp only [is_operator, Bool.and_eq_true, List.any_eq_true, beq_iff_eq] at operator
  obtain ⟨-, t, member, head⟩ := operator
  exact all t member c head

variable {c : UInt8} {cs : Bytes}

theorem fromChars_plain (h : plain c = true) :
    Value.FromChars (c :: cs) = (simple_from_chars (c :: cs)).or (symbol_from_chars (c :: cs)) := by
  simp only [plain, Bool.and_eq_true, bne_iff_ne, Bool.not_eq_true'] at h
  obtain ⟨⟨⟨⟨cr, lf⟩, blank⟩, digit⟩, quote⟩ := h
  have endl : endl_from_chars (c :: cs) = none := by
    unfold endl_from_chars
    split <;> simp_all
  have int : int_from_chars (c :: cs) = none := by
    simp [int_from_chars, digits, digit]
  have float : float_from_chars (c :: cs) = none := by
    rw [float_from_chars, int]
  have str : str_from_chars (c :: cs) = none := by
    rw [str_from_chars, if_pos quote]
  rw [Value.FromChars, endl, float, int, str, blank]
  simp

theorem simple_longest {t : TokenType} (member : t ∈ simple_tokens) (begins : t.spelling <+: cs)
    (longest : ∀ t' ∈ simple_tokens, t'.spelling <+: cs → t'.spelling.length ≤ t.spelling.length) :
    simple_from_chars cs = some (.make t t.spelling.length) := by
  have first := Prefix.first_longest ordered member begins longest
  exact congrArg (Option.map _) first

theorem simple_none (nothing : ∀ t ∈ simple_tokens, ¬ t.spelling <+: cs) :
    simple_from_chars cs = none :=
  congrArg (Option.map _) (Prefix.first_none.mpr nothing)

theorem simple_some {v : Value} (h : simple_from_chars cs = some v) :
    ∃ t ∈ simple_tokens, t.spelling <+: cs ∧ v = .make t t.spelling.length := by
  obtain ⟨t, found, rfl⟩ := Option.map_eq_some_iff.mp h
  have first : Prefix.first TokenType.spelling simple_tokens cs = some t := found
  obtain ⟨member, begins⟩ := Prefix.mem_of_first first
  exact ⟨t, member, begins, rfl⟩

theorem spelling_prefix_word {t : TokenType} (head : is_symbol_head_ele c = true)
    (member : t ∈ simple_tokens) (begins : t.spelling <+: c :: cs) :
    t.spelling <+: word (c :: cs) ∧ t.spelling.head?.any is_symbol_head_ele = true := by
  cases spelled : t.spelling with
  | nil => exact absurd spelled (spelling_ne_nil member)
  | cons a as =>
    rw [spelled] at begins
    obtain rfl : a = c := (List.cons_prefix_cons.mp begins).1
    have keyword : t.spelling.head?.any is_symbol_head_ele = true := by simp [spelled, head]
    have letters := spelling_word member keyword
    rw [spelled] at letters keyword
    refine ⟨?_, keyword⟩
    obtain ⟨rest, range⟩ := begins
    rw [← range, word, List.takeWhile_append_of_pos letters]
    exact List.prefix_append _ _

theorem symbol_from_chars_head (head : is_symbol_head_ele c = true) :
    symbol_from_chars (c :: cs) =
      if word (c :: cs) = c :: cs then none
      else some (.CreateSymbol (word (c :: cs)).length (word (c :: cs))) := by
  have letter : is_symbol_ele c = true := by simp [is_symbol_ele, head]
  have ends : (cs.takeWhile is_symbol_ele).length = cs.length ↔ cs.takeWhile is_symbol_ele = cs :=
    ⟨(List.takeWhile_prefix _).eq_of_length, congrArg _⟩
  simp [symbol_from_chars, head, word, List.takeWhile_cons_of_pos letter, ends]

theorem symbol_from_chars_other (other : is_symbol_head_ele c = false) :
    symbol_from_chars (c :: cs) = none := by
  simp [symbol_from_chars, other]

/-- The longest token is taken exactly where no keyword cuts a word and no symbol ends the
range. -/
theorem maximalMunch_iff (cs : Bytes) :
    MaximalMunch cs ↔ (Begins is_symbol_head_ele cs → WholeWord cs) := by
  constructor
  · rintro ⟨-, symbol, -, -⟩ ⟨c, rest, rfl, head⟩
    have begin : Begins is_symbol_head_ele (c :: rest) := ⟨c, rest, rfl, head⟩
    by_cases spelled : ∃ t ∈ simple_tokens, t.spelling = word (c :: rest)
    · obtain ⟨t, member, same⟩ := spelled
      refine ⟨fun t' member' begins => ?_, .inl ⟨t, member, same⟩⟩
      have keyword := (spelling_prefix_word head member' (begins.trans (List.takeWhile_prefix _))).2
      exact (keyword_begins t' member' t member keyword (same ▸ begins)).trans same
    · have taken := symbol begin fun t member same => spelled ⟨t, member, same⟩
      rw [fromChars_plain (plain_head head)] at taken
      have no_simple : simple_from_chars (c :: rest) = none := by
        cases found : simple_from_chars (c :: rest) with
        | none => rfl
        | some v =>
          obtain ⟨t, member, -, rfl⟩ := simple_some found
          rw [found, Option.some_or, Option.some.injEq] at taken
          exact absurd (congrArg Value.type_ taken) (simple_type t member)
      have none_begins := Prefix.first_none.mp (Option.map_eq_none_iff.mp no_simple)
      rw [no_simple, symbol_from_chars_head head] at taken
      refine ⟨fun t member begins => ?_, .inr ?_⟩
      · exact absurd (begins.trans (List.takeWhile_prefix _)) (none_begins t member)
      · intro whole
        simp [whole] at taken
  · intro whole
    constructor
    · rintro ⟨c, rest, rfl, head⟩ t member same
      have only := (whole ⟨c, rest, rfl, head⟩).1
      have begins : t.spelling <+: c :: rest := same ▸ List.takeWhile_prefix _
      have found := simple_longest member begins fun t' member' begins' => by
        rw [only t' member' (spelling_prefix_word head member' begins').1, same]
      rw [fromChars_plain (plain_head head), found, same]
      rfl
    · rintro ⟨c, rest, rfl, head⟩ other
      obtain ⟨only, ends⟩ := whole ⟨c, rest, rfl, head⟩
      have more : word (c :: rest) ≠ c :: rest := by
        rcases ends with ⟨t, member, same⟩ | more
        · exact absurd same (other t member)
        · exact more
      have none_begins : ∀ t ∈ simple_tokens, ¬ t.spelling <+: c :: rest := fun t member begins =>
        other t member (only t member (spelling_prefix_word head member begins).1)
      rw [fromChars_plain (plain_head head), simple_none none_begins, symbol_from_chars_head head,
        if_neg more]
      rfl
    · rintro ⟨c, rest, rfl, operator⟩ t member begins longest
      rw [fromChars_plain (plain_operator operator), simple_longest member begins longest]
      rfl
    · rintro ⟨c, rest, rfl, operator⟩ none_begins
      have other : is_symbol_head_ele c = false := by
        simp only [is_operator, Bool.and_eq_true, Bool.not_eq_true'] at operator
        exact operator.1
      rw [fromChars_plain (plain_operator operator), simple_none none_begins,
        symbol_from_chars_other other]
      rfl

/-- The word `goto` is cut after `go`, and a symbol that ends the range is no token. -/
theorem goto_cut : ¬ MaximalMunch (bytes "goto ") ∧ ¬ MaximalMunch (bytes "x") := by
  constructor
  · intro munch
    exact absurd (munch.symbol ⟨_, _, rfl, by decide⟩ (by decide)) (by decide)
  · intro munch
    exact absurd (munch.symbol ⟨_, _, rfl, by decide⟩ (by decide)) (by decide)

end Lexer

end Mygo

import Mygo.Lexer.Blanks

namespace Mygo

namespace Lexer

def numeral : Nat → Nat → Bytes
  | 0, _ => []
  | len + 1, n => numeral len (n / 10) ++ [(48 + n % 10).toUInt8]

end Lexer

open Lexer

/-- The text of a token, from the `int` or the string it keeps.  A line ends with `\n`, and a
`float` has no digits to write. -/
def Value.text (v : Value) : Bytes :=
  match v.type_ with
  | .Enl => [10]
  | .Int => numeral v.len_ (BitVec.ofInt 32 v.i_data_).toNat
  | .Str => 34 :: (v.str_data_ ++ [34])
  | .Symbol => v.str_data_
  | t => t.spelling

/-- A token whose text can be told from what it keeps. -/
structure Value.Kept (v : Value) : Prop where
  float : v.type_ ≠ .Float
  int : v.type_ = .Int → v.i_data_ ≤ int_max

def render : List Value → Bytes
  | [] => []
  | v :: vs => v.text ++ ((if v.type_ = .Enl then [] else [32]) ++ render vs)

namespace Lexer

variable {c : UInt8} {u r : Bytes} {v : Value} {vs : List Value}

theorem decimal_append (ds : Bytes) (c : UInt8) : decimal (ds ++ [c]) = decimal ds * 10 + (c.toNat - 48) := by
  simp [decimal, Nat.ofDigits_cons, Nat.add_comm, Nat.mul_comm]

theorem digit_again (digit : is_digit c = true) : (48 + (c.toNat - 48) % 10).toUInt8 = c := by
  simp only [is_digit, Bool.and_eq_true, decide_eq_true_eq, UInt8.le_iff_toNat_le] at digit
  have low : 48 ≤ c.toNat := digit.1
  have high : c.toNat ≤ 57 := digit.2
  rw [Nat.mod_eq_of_lt (by omega), Nat.add_sub_cancel' low]
  exact UInt8.ofNat_toNat

theorem numeral_decimal (ds : Bytes) (all : ∀ c ∈ ds, is_digit c = true) : numeral ds.length (decimal ds) = ds := by
  induction ds using List.reverseRecOn with
  | nil => rfl
  | append_singleton ds c ih =>
    obtain ⟨before, last⟩ := List.forall_mem_append.mp all
    have digit := last c (List.mem_singleton_self c)
    have bound := digit
    simp only [is_digit, Bool.and_eq_true, decide_eq_true_eq, UInt8.le_iff_toNat_le] at bound
    have high : c.toNat ≤ 57 := bound.2
    rw [List.length_append, List.length_singleton, numeral, decimal_append]
    have quotient : (decimal ds * 10 + (c.toNat - 48)) / 10 = decimal ds := by omega
    have remainder : (decimal ds * 10 + (c.toNat - 48)) % 10 = (c.toNat - 48) % 10 := by omega
    rw [quotient, remainder, ih before, digit_again digit]

theorem text_make {t : TokenType} (member : t ∈ simple_tokens) (n : Nat) : (Value.make t n).text = t.spelling := by
  cases t <;> first | rfl | exact absurd member (by decide)

theorem int_kept {n : Nat} (fits : n ≤ int_max) : (BitVec.ofInt 32 (n : Int)).toNat = n := by
  rw [BitVec.ofInt_natCast, BitVec.toNat_ofNat]
  unfold int_max at fits
  omega

theorem text_digit (digit : is_digit c = true) (h : Value.FromChars (c :: u ++ r) = some v)
    (len : v.len_ = (c :: u).length) (kept : v.Kept) : v.text = c :: u := by
  have whole : (c :: u ++ r).takeWhile is_digit ++ (c :: u ++ r).dropWhile is_digit = c :: u ++ r :=
    List.takeWhile_append_dropWhile
  have all : ∀ d ∈ (c :: u ++ r).takeWhile is_digit, is_digit d = true :=
    List.all_eq_true.mp List.all_takeWhile
  rw [List.cons_append, fromChars_digit digit, ← List.cons_append] at h
  generalize (c :: u ++ r).takeWhile is_digit = d1 at h whole all
  generalize (c :: u ++ r).dropWhile is_digit = rest at h whole
  simp only [Option.some.injEq] at h
  split at h
  · subst h
    exact absurd rfl kept.float
  · subst h
    have read : d1 = c :: u := (List.append_inj whole len).1
    have fits : decimal d1 ≤ int_max := Int.ofNat_le.mp (kept.int rfl)
    rw [← read]
    change numeral d1.length (BitVec.ofInt 32 (decimal d1)).toNat = d1
    rw [int_kept fits, numeral_decimal d1 all]

theorem text_read (h : Value.FromChars (u ++ r) = some v) (len : v.len_ = u.length) (more : u ≠ [])
    (word : v.type_ ≠ .Space) (inside : v.type_ ≠ .Enl) (kept : v.Kept) : v.text = u := by
  have covers := fromChars_inside (by simp [more]) h
  cases u with
  | nil => exact absurd rfl more
  | cons c u =>
    have begins : (c :: u ++ r).take v.len_ = c :: u := by rw [len, List.take_left]
    rcases head_cases c with rfl | rfl | blank | digit | rfl | head
    · rw [List.cons_append, fromChars_return] at h
      cases h
      exact absurd rfl inside
    · rw [List.cons_append, fromChars_feed] at h
      cases h
      exact absurd rfl inside
    · rw [List.cons_append, fromChars_blank blank] at h
      cases h
      exact absurd rfl word
    · exact text_digit digit h len kept
    · rw [List.cons_append, fromChars_quote] at h
      have string := (bare_str h).2
      rw [Value.text, string, ← covers.string string, begins]
    · rw [List.cons_append, fromChars_plain head] at h
      rcases Option.or_eq_some_iff.mp h with simple | ⟨-, symbol⟩
      · obtain ⟨t, member, starts, rfl⟩ := simple_some simple
        rw [text_make member, ← begins, Value.len_make]
        exact (List.prefix_iff_eq_take.mp starts)
      · have symbol := (bare_symbol symbol).2
        rw [Value.text, symbol, covers.symbol symbol, begins]

theorem symbol_read (h : Value.FromChars (u ++ r) = some v) (len : v.len_ = u.length) (more : u ≠ [])
    (symbol : v.type_ = .Symbol) : v = .CreateSymbol u.length u := by
  have covers := fromChars_inside (by simp [more]) h
  have text : v.str_data_ = u := by rw [covers.symbol symbol, len, List.take_left]
  have made : symbol_from_chars (u ++ r) = some v → v = .CreateSymbol v.len_ v.str_data_ := by
    intro found
    cases parts : u ++ r with
    | nil => exact absurd (List.append_eq_nil_iff.mp parts).1 more
    | cons c cs =>
      rw [parts, symbol_from_chars] at found
      split at found
      · simp only at found
        split at found
        · cases found
        · cases found
          rfl
      · cases found
  rw [← len]
  conv_rhs => rw [← text]
  cases u with
  | nil => exact absurd rfl more
  | cons c u =>
    rcases fromChars_cases h with endl | ⟨-, rfl⟩ | simple | float | int | str | found
    · cases (bare_endl endl).2.symm.trans symbol
    · cases symbol
    · obtain ⟨t, member, -, rfl⟩ := simple_some simple
      exact absurd symbol (simple_type t member)
    · cases (bare_float float).2.symm.trans symbol
    · cases (bare_int int).2.symm.trans symbol
    · cases (bare_str str).2.symm.trans symbol
    · exact made found

structure Written (v : Value) : Prop where
  word : v.type_ ≠ .Space
  some_ : v.text ≠ []
  len : v.len_ = v.text.length
  again : ∀ b, Value.FromChars (v.text ++ ((if v.type_ = .Enl then [] else [32]) ++ b)) = some v

theorem written_line : Written (.make .Enl 1) :=
  ⟨nofun, List.cons_ne_nil _ _, rfl, fun _ => fromChars_feed⟩

theorem written_read (h : Value.FromChars (u ++ r) = some v) (len : v.len_ = u.length) (more : u ≠ [])
    (word : v.type_ ≠ .Space) (inside : v.type_ ≠ .Enl) (kept : v.Kept) : Written v := by
  have read := text_read h len more word inside kept
  have covers := fromChars_inside (by simp [more]) h
  refine ⟨word, by rw [read]; exact more, by rw [read]; exact len, fun b => ?_⟩
  rw [read, if_neg inside]
  refine (fromChars_again h len).mpr ?_
  exact extends_blank (r := []) rfl covers.inside (fun space => absurd space word) ((fromChars_again h len).mp h)

theorem written_spelling {t : TokenType} (member : t ∈ simple_tokens) : Written (.make t t.spelling.length) := by
  have first : ∀ t ∈ simple_tokens, Value.FromChars (t.spelling ++ [32]) = some (.make t t.spelling.length) ∧
      t.spelling ≠ [] ∧ t ≠ .Space ∧ t ≠ .Enl ∧ t ≠ .Float ∧ t ≠ .Int := by decide +kernel
  obtain ⟨read, more, word, inside, float, int⟩ := first t member
  exact written_read read rfl more word inside ⟨float, fun same => absurd same int⟩

theorem words_render (all : ∀ v ∈ vs, Written v) : words (render vs) = vs ++ [.make .Enf 0] := by
  induction vs with
  | nil => rfl
  | cons v vs ih =>
    obtain ⟨first, others⟩ := List.forall_mem_cons.mp all
    rw [render, words_token (first.again _) first.len first.some_ first.word]
    split
    · rw [List.nil_append, ih others]
      rfl
    · rw [words_blanks (List.forall_mem_singleton.mpr rfl), ih others]
      rfl

theorem visible_render (all : ∀ v ∈ vs, Written v) : visible (render vs) = vs ++ [.make .Enf 0] := by
  cases vs with
  | nil => rfl
  | cons v vs =>
    obtain ⟨first, -⟩ := List.forall_mem_cons.mp all
    have whole := words_render all
    rw [render, words_token (first.again _) first.len first.some_ first.word] at whole
    rw [render, visible_word (first.again _) first.len first.some_, whole]

end Lexer

end Mygo

import Mygo.Lexer.Munch

namespace Mygo

@[simp] theorem Value.len_make (t : TokenType) (len : Nat) : (make t len).len_ = len := rfl

namespace Lexer

/-- A token for some of the bytes at the beginning of the range, and its text. -/
structure Covers (cs : Bytes) (v : Value) : Prop where
  inside : v.type_ ≠ .Enf
  positive : 1 ≤ v.len_
  within : v.len_ ≤ cs.length
  symbol : v.type_ = .Symbol → v.str_data_ = cs.take v.len_
  string : v.type_ = .Str → cs.take v.len_ = 34 :: (v.str_data_ ++ [34])

variable {cs : Bytes} {v : Value}

theorem covers_plain {t : TokenType} {len : Nat} (inside : t ≠ .Enf) (no_symbol : t ≠ .Symbol)
    (no_string : t ≠ .Str) (positive : 1 ≤ len) (within : len ≤ cs.length) :
    Covers cs (.make t len) :=
  ⟨inside, positive, within, fun h => absurd h no_symbol, fun h => absurd h no_string⟩

theorem covers_endl (h : endl_from_chars cs = some v) : Covers cs v := by
  unfold endl_from_chars at h
  split at h
  · cases h
    exact covers_plain nofun nofun nofun (by decide) (by simp)
  · cases h
    exact covers_plain nofun nofun nofun (by decide) (by simp)
  · cases h
    exact covers_plain nofun nofun nofun (by decide) (by simp)
  · cases h

theorem covers_simple (h : simple_from_chars cs = some v) : Covers cs v := by
  obtain ⟨t, member, begins, rfl⟩ := simple_some h
  have kind : ∀ t ∈ simple_tokens, t ≠ .Enf ∧ t ≠ .Symbol ∧ t ≠ .Str ∧ 1 ≤ t.spelling.length := by decide
  obtain ⟨inside, no_symbol, no_string, positive⟩ := kind t member
  exact covers_plain inside no_symbol no_string positive begins.length_le

theorem digits_len (len : Nat) (res : Int) (cs : Bytes) :
    len ≤ (digits len res cs).1 ∧ (digits len res cs).1 ≤ len + cs.length := by
  induction cs generalizing len res with
  | nil => exact ⟨Nat.le_refl _, Nat.le_refl _⟩
  | cons c cs ih =>
    rw [digits]
    split
    · have rest := ih (len + 1) (res * 10 + (c.toNat - 48))
      simp only [List.length_cons]
      omega
    · exact ⟨Nat.le_refl _, Nat.le_add_right _ _⟩

theorem int_some (h : int_from_chars cs = some v) :
    ∃ len res, v = .CreateInt len res ∧ 1 ≤ len ∧ len ≤ cs.length := by
  have bound := digits_len 0 0 cs
  simp only [int_from_chars] at h
  split at h
  · next positive =>
    cases h
    exact ⟨_, _, rfl, positive, by omega⟩
  · cases h

theorem covers_int (h : int_from_chars cs = some v) : Covers cs v := by
  obtain ⟨len, res, rfl, positive, within⟩ := int_some h
  exact ⟨nofun, positive, within, nofun, nofun⟩

theorem covers_float (h : float_from_chars cs = some v) : Covers cs v := by
  unfold float_from_chars at h
  split at h
  · cases h
  · next n1 first =>
    obtain ⟨len, res, rfl, positive, within⟩ := int_some first
    split at h
    · cases h
    · next c rest dropped =>
      split at h
      · cases h
      · split at h
        · cases h
        · next n2 second =>
          obtain ⟨len', res', rfl, positive', within'⟩ := int_some second
          cases h
          have rest_length := congrArg List.length dropped
          simp only [List.length_drop, List.length_cons, Value.CreateInt, Value.len_make] at rest_length
          refine ⟨nofun, ?_, ?_, nofun, nofun⟩
          · exact Nat.le_add_left 1 _
          · simp only [Value.CreateFloat, Value.CreateInt, Value.len_make]
            omega

theorem takeWhile_stops {p : UInt8 → Bool} (h : (cs.takeWhile p).length ≠ cs.length) :
    ∃ c rest, cs = cs.takeWhile p ++ c :: rest ∧ p c = false := by
  induction cs with
  | nil => exact absurd rfl h
  | cons c cs ih =>
    cases holds : p c with
    | true =>
      rw [List.takeWhile_cons_of_pos holds] at h ⊢
      obtain ⟨c', rest, split, stop⟩ := ih fun same => h (congrArg Nat.succ same)
      exact ⟨c', rest, congrArg (c :: ·) split, stop⟩
    | false =>
      rw [List.takeWhile_cons_of_neg (by simp [holds])]
      exact ⟨c, cs, rfl, holds⟩

theorem covers_str (h : str_from_chars cs = some v) : Covers cs v := by
  cases cs with
  | nil => cases h
  | cons c cs =>
    simp only [str_from_chars] at h
    split at h
    · cases h
    · next quote =>
      split at h
      · cases h
      · next more =>
        cases h
        obtain ⟨c', rest, parts, stop⟩ := takeWhile_stops more
        obtain rfl : c = 34 := not_not.mp quote
        obtain rfl : c' = 34 := by simpa using stop
        generalize cs.takeWhile (fun x => decide (x ≠ 34)) = s at parts
        subst parts
        have other : (Value.CreateStr (s.length + 2) s).type_ = .Str := rfl
        refine ⟨by simp [other], Nat.le_add_left 1 _, ?_, by simp [other], fun _ => ?_⟩
        · simp [Value.CreateStr]
        · simp [Value.CreateStr, List.take_append]

theorem covers_symbol (h : symbol_from_chars cs = some v) : Covers cs v := by
  cases cs with
  | nil => cases h
  | cons c cs =>
    simp only [symbol_from_chars] at h
    split at h
    · split at h
      · cases h
      · cases h
        have symbol : ∀ len data, (Value.CreateSymbol len data).type_ = .Symbol := fun _ _ => rfl
        refine ⟨by simp [symbol], ?_, ?_, fun _ => ?_, by simp [symbol]⟩
        · exact Nat.le_add_left 1 _
        · exact Nat.succ_le_succ (List.takeWhile_prefix _).length_le
        · exact congrArg (c :: ·) (List.prefix_iff_eq_take.mp (List.takeWhile_prefix _))
    · cases h

theorem fromChars_cases {c : UInt8} (h : Value.FromChars (c :: cs) = some v) :
    endl_from_chars (c :: cs) = some v ∨
      is_blank c = true ∧ v = .make .Space ((c :: cs).takeWhile is_blank).length ∨
      simple_from_chars (c :: cs) = some v ∨ float_from_chars (c :: cs) = some v ∨
      int_from_chars (c :: cs) = some v ∨ str_from_chars (c :: cs) = some v ∨ symbol_from_chars (c :: cs) = some v := by
  simp only [Value.FromChars] at h
  split at h
  · next endl =>
    cases h
    exact .inl endl
  · split at h
    · next blank =>
      cases h
      exact .inr (.inl ⟨blank, rfl⟩)
    · simp only [Option.or_eq_some_iff] at h
      rcases h with simple | ⟨-, float | ⟨-, int | ⟨-, str | ⟨-, symbol⟩⟩⟩⟩
      · exact .inr (.inr (.inl simple))
      · exact .inr (.inr (.inr (.inl float)))
      · exact .inr (.inr (.inr (.inr (.inl int))))
      · exact .inr (.inr (.inr (.inr (.inr (.inl str)))))
      · exact .inr (.inr (.inr (.inr (.inr (.inr symbol)))))

theorem fromChars_covers {c : UInt8} {cs : Bytes} {v : Value}
    (h : Value.FromChars (c :: cs) = some v) : Covers (c :: cs) v := by
  rcases fromChars_cases h with endl | ⟨blank, rfl⟩ | simple | float | int | str | symbol
  · exact covers_endl endl
  · refine covers_plain nofun nofun nofun ?_ (List.takeWhile_prefix _).length_le
    simp [List.takeWhile_cons_of_pos blank]
  · exact covers_simple simple
  · exact covers_float float
  · exact covers_int int
  · exact covers_str str
  · exact covers_symbol symbol

def Bare (v : Value) : Prop := v.start = .init ∧ v.end_ = .init

theorem bare_endl (h : endl_from_chars cs = some v) : Bare v ∧ v.type_ = .Enl := by
  unfold endl_from_chars at h
  split at h
  · cases h
    exact ⟨⟨rfl, rfl⟩, rfl⟩
  · cases h
    exact ⟨⟨rfl, rfl⟩, rfl⟩
  · cases h
    exact ⟨⟨rfl, rfl⟩, rfl⟩
  · cases h

theorem bare_int (h : int_from_chars cs = some v) : Bare v ∧ v.type_ = .Int := by
  obtain ⟨len, res, rfl, -, -⟩ := int_some h
  exact ⟨⟨rfl, rfl⟩, rfl⟩

theorem bare_float (h : float_from_chars cs = some v) : Bare v ∧ v.type_ = .Float := by
  unfold float_from_chars at h
  split at h
  · cases h
  · split at h
    · cases h
    · split at h
      · cases h
      · split at h
        · cases h
        · cases h
          exact ⟨⟨rfl, rfl⟩, rfl⟩

theorem bare_str (h : str_from_chars cs = some v) : Bare v ∧ v.type_ = .Str := by
  cases cs with
  | nil => cases h
  | cons c cs =>
    simp only [str_from_chars] at h
    split at h
    · cases h
    · split at h
      · cases h
      · cases h
        exact ⟨⟨rfl, rfl⟩, rfl⟩

theorem bare_symbol (h : symbol_from_chars cs = some v) : Bare v ∧ v.type_ = .Symbol := by
  cases cs with
  | nil => cases h
  | cons c cs =>
    simp only [symbol_from_chars] at h
    split at h
    · split at h
      · cases h
      · cases h
        exact ⟨⟨rfl, rfl⟩, rfl⟩
    · cases h

theorem fromChars_bare (h : Value.FromChars cs = some v) : Bare v := by
  cases cs with
  | nil =>
    cases h
    exact ⟨rfl, rfl⟩
  | cons c cs =>
    rcases fromChars_cases h with endl | ⟨-, rfl⟩ | simple | float | int | str | symbol
    · exact (bare_endl endl).1
    · exact ⟨rfl, rfl⟩
    · obtain ⟨t, -, -, rfl⟩ := simple_some simple
      exact ⟨rfl, rfl⟩
    · exact (bare_float float).1
    · exact (bare_int int).1
    · exact (bare_str str).1
    · exact (bare_symbol symbol).1

theorem fromChars_endl (h : Value.FromChars cs = some v) (line : v.type_ = .Enl) :
    endl_from_chars cs = some v := by
  cases cs with
  | nil =>
    cases h
    cases line
  | cons c cs =>
    rcases fromChars_cases h with endl | ⟨-, rfl⟩ | simple | float | int | str | symbol
    · exact endl
    · cases line
    · obtain ⟨t, member, -, rfl⟩ := simple_some simple
      have other : ∀ t ∈ simple_tokens, t ≠ .Enl := by decide
      exact absurd line (other t member)
    · exact nomatch (bare_float float).2.symm.trans line
    · exact nomatch (bare_int int).2.symm.trans line
    · exact nomatch (bare_str str).2.symm.trans line
    · exact nomatch (bare_symbol symbol).2.symm.trans line

theorem fromChars_space {c : UInt8} (h : Value.FromChars (c :: cs) = some v) (space : v.type_ = .Space) :
    is_blank c = true ∧ v = .make .Space ((c :: cs).takeWhile is_blank).length := by
  rcases fromChars_cases h with endl | blank | simple | float | int | str | symbol
  · exact nomatch (bare_endl endl).2.symm.trans space
  · exact blank
  · obtain ⟨t, member, -, rfl⟩ := simple_some simple
    have other : ∀ t ∈ simple_tokens, t ≠ .Space := by decide
    exact absurd space (other t member)
  · exact nomatch (bare_float float).2.symm.trans space
  · exact nomatch (bare_int int).2.symm.trans space
  · exact nomatch (bare_str str).2.symm.trans space
  · exact nomatch (bare_symbol symbol).2.symm.trans space

end Lexer

end Mygo

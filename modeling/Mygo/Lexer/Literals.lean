import Mathlib.Data.Nat.Digits.Defs
import Mygo.Stream.Locations

namespace Mygo

def int_max : Nat := 2147483647

namespace Lexer

namespace Checked

/-- `res * 10 + digit`; `none` is a signed overflow, here and below. -/
def accumulate (res digit : Int) : Option Int :=
  if res * 10 ≤ int_max ∧ res * 10 + digit ≤ int_max then some (res * 10 + digit) else none

def digits (len : Nat) (res : Int) : Bytes → Option (Nat × Int)
  | [] => some (len, res)
  | c :: cs =>
    if is_digit c then do
      let res ← accumulate res (c.toNat - 48)
      if len + 1 ≤ int_max then digits (len + 1) res cs else none
    else some (len, res)

def int_from_chars (cs : Bytes) : Option (Option Value) := do
  let (len, res) ← digits 0 0 cs
  some (if 0 < len then some (.CreateInt len res) else none)

def float_from_chars (cs : Bytes) : Option (Option Value) := do
  match ← int_from_chars cs with
  | none => some none
  | some n1 =>
    match cs.drop n1.len_ with
    | [] => some none
    | c :: rest =>
      if c ≠ 46 then some none
      else
        match ← int_from_chars rest with
        | none => some none
        | some n2 =>
          if n1.len_ + n2.len_ + 1 ≤ int_max then
            some (some (.CreateFloat (n1.len_ + n2.len_ + 1) ⟨n1.i_data_, n2.i_data_, n2.len_⟩))
          else none

def FromChars (cs : Bytes) : Option (Option Value) :=
  match cs with
  | [] => some (some (.make .Enf 0))
  | c :: _ =>
    match endl_from_chars cs with
    | some v => some (some v)
    | none =>
      if is_blank c then some (some (.make .Space (cs.takeWhile is_blank).length))
      else
        match simple_from_chars cs with
        | some v => some (some v)
        | none => do
          match ← float_from_chars cs with
          | some v => some (some v)
          | none =>
            match ← int_from_chars cs with
            | some v => some (some v)
            | none => some ((str_from_chars cs).or (symbol_from_chars cs))

end Checked

section Exact

variable {cs : Bytes}

theorem exact_digits {len : Nat} {res : Int} {r : Nat × Int} (h : Checked.digits len res cs = some r) :
    digits len res cs = r := by
  induction cs generalizing len res with
  | nil =>
    cases h
    rfl
  | cons c cs ih =>
    rw [Checked.digits] at h
    rw [digits]
    split at h
    · next digit =>
      obtain ⟨res', step, h⟩ := Option.bind_eq_some_iff.mp h
      rw [Checked.accumulate] at step
      split at step
      · cases step
        split at h
        · rw [if_pos digit]
          exact ih h
        · cases h
      · cases step
    · next other =>
      cases h
      rw [if_neg other]

theorem exact_int {v : Option Value} (h : Checked.int_from_chars cs = some v) : int_from_chars cs = v := by
  obtain ⟨⟨len, res⟩, run, h⟩ := Option.bind_eq_some_iff.mp h
  rw [int_from_chars, exact_digits run]
  exact Option.some.inj h

theorem exact_float {v : Option Value} (h : Checked.float_from_chars cs = some v) : float_from_chars cs = v := by
  obtain ⟨n1, first, h⟩ := Option.bind_eq_some_iff.mp h
  rw [float_from_chars, exact_int first]
  cases n1 with
  | none => exact Option.some.inj h
  | some n1 =>
    simp only at h ⊢
    cases rest : cs.drop n1.len_ with
    | nil =>
      rw [rest] at h
      exact Option.some.inj h
    | cons c cs' =>
      rw [rest] at h
      by_cases dot : c ≠ 46
      · simp only [if_pos dot] at h ⊢
        exact Option.some.inj h
      · simp only [if_neg dot] at h ⊢
        obtain ⟨n2, second, h⟩ := Option.bind_eq_some_iff.mp h
        rw [exact_int second]
        cases n2 with
        | none => exact Option.some.inj h
        | some n2 =>
          simp only at h ⊢
          split at h
          · exact Option.some.inj h
          · cases h

theorem exact_fromChars {v : Option Value} (h : Checked.FromChars cs = some v) : Value.FromChars cs = v := by
  cases cs with
  | nil => exact Option.some.inj h
  | cons c cs =>
    rw [Checked.FromChars] at h
    rw [Value.FromChars]
    cases line : endl_from_chars (c :: cs) with
    | some v =>
      rw [line] at h
      exact Option.some.inj h
    | none =>
      simp only [line] at h ⊢
      by_cases blank : is_blank c = true
      · rw [if_pos blank] at h ⊢
        exact Option.some.inj h
      · rw [if_neg blank] at h ⊢
        cases simple : simple_from_chars (c :: cs) with
        | some v =>
          rw [simple] at h
          exact Option.some.inj h
        | none =>
          simp only [simple] at h
          obtain ⟨x, float, h⟩ := Option.bind_eq_some_iff.mp h
          rw [exact_float float]
          cases x with
          | some v => exact Option.some.inj h
          | none =>
            obtain ⟨y, int, h⟩ := Option.bind_eq_some_iff.mp h
            rw [exact_int int]
            cases y with
            | some v => exact Option.some.inj h
            | none => exact Option.some.inj h

end Exact

def decimal (ds : Bytes) : Nat := Nat.ofDigits 10 (ds.reverse.map fun c => c.toNat - 48)

def fraction : Bytes → Option Bytes
  | [] => none
  | c :: rest => if c = 46 ∧ rest.takeWhile is_digit ≠ [] then some (rest.takeWhile is_digit) else none

/-- What a range that begins with digits means: `d1` where it fits in `int`, or `d1.d2`. -/
def literal (cs : Bytes) : Option Value :=
  let d1 := cs.takeWhile is_digit
  match fraction (cs.dropWhile is_digit) with
  | some d2 => some (.CreateFloat (d1.length + d2.length + 1) ⟨decimal d1, decimal d2, d2.length⟩)
  | none => if decimal d1 ≤ int_max then some (.CreateInt d1.length (decimal d1)) else none

/-- The values of all digits, and the length, fit in `int`. -/
def Representable (cs : Bytes) : Prop :=
  let d1 := cs.takeWhile is_digit
  decimal d1 ≤ int_max ∧ d1.length ≤ int_max ∧
    ∀ d2, fraction (cs.dropWhile is_digit) = some d2 →
      decimal d2 ≤ int_max ∧ d1.length + d2.length + 1 ≤ int_max

variable {c : UInt8} {cs : Bytes}

theorem decimal_cons (c : UInt8) (ds : Bytes) :
    decimal (c :: ds) = (c.toNat - 48) * 10 ^ ds.length + decimal ds := by
  rw [decimal, decimal, List.reverse_cons, List.map_append, Nat.ofDigits_append]
  simp [Nat.add_comm, Nat.mul_comm]

theorem digit_value (digit : is_digit c = true) : ((c.toNat - 48 : Nat) : Int) = (c.toNat : Int) - 48 := by
  simp [is_digit, UInt8.le_iff_toNat_le] at digit
  omega

theorem digits_run (len : Nat) (res : Int) (cs : Bytes) :
    digits len res cs = (len + (cs.takeWhile is_digit).length,
      res * 10 ^ (cs.takeWhile is_digit).length + decimal (cs.takeWhile is_digit)) := by
  induction cs generalizing len res with
  | nil => simp [digits, decimal]
  | cons c cs ih =>
    rw [digits]
    split
    · next digit =>
      rw [ih, List.takeWhile_cons_of_pos digit, decimal_cons, ← digit_value digit]
      simp only [List.length_cons, Prod.mk.injEq]
      constructor
      · omega
      · push_cast
        ring
    · next other =>
      rw [List.takeWhile_cons_of_neg (by simpa using other)]
      simp [decimal]

theorem checked_digits (len : Nat) (res : Nat) (cs : Bytes) (short : len ≤ int_max) (small : res ≤ int_max) :
    Checked.digits len res cs =
      if len + (cs.takeWhile is_digit).length ≤ int_max ∧
          res * 10 ^ (cs.takeWhile is_digit).length + decimal (cs.takeWhile is_digit) ≤ int_max then
        some (digits len res cs)
      else none := by
  induction cs generalizing len res with
  | nil => simp [Checked.digits, digits, decimal, short, small]
  | cons c cs ih =>
    rw [Checked.digits, digits]
    split
    · next digit =>
      rw [List.takeWhile_cons_of_pos digit, decimal_cons, ← digit_value digit, List.length_cons]
      generalize c.toNat - 48 = k
      have shift : res * 10 ^ ((cs.takeWhile is_digit).length + 1) +
          (k * 10 ^ (cs.takeWhile is_digit).length + decimal (cs.takeWhile is_digit)) =
          (res * 10 + k) * 10 ^ (cs.takeWhile is_digit).length + decimal (cs.takeWhile is_digit) := by ring
      have grows : res * 10 + k ≤ (res * 10 + k) * 10 ^ (cs.takeWhile is_digit).length :=
        Nat.le_mul_of_pos_right _ (Nat.pos_of_ne_zero (by simp))
      rw [shift]
      by_cases fits : res * 10 + k ≤ int_max
      · have step : Checked.accumulate res k = some ((res * 10 + k : Nat) : Int) := by
          rw [Checked.accumulate, if_pos ⟨by omega, by omega⟩]
          push_cast
          rfl
        have value : (res : Int) * 10 + k = ((res * 10 + k : Nat) : Int) := by push_cast; rfl
        rw [step, value]
        change (if len + 1 ≤ int_max then Checked.digits (len + 1) ((res * 10 + k : Nat) : Int) cs else none) = _
        by_cases room : len + 1 ≤ int_max
        · rw [if_pos room, ih (len + 1) (res * 10 + k) room fits, Nat.add_right_comm len 1, Nat.add_assoc len]
        · rw [if_neg room, if_neg (by omega)]
      · have step : Checked.accumulate res k = none := if_neg (by omega)
        rw [step, if_neg (by omega)]
        rfl
    · next other =>
      rw [List.takeWhile_cons_of_neg (by simpa using other), if_pos]
      simp [decimal, short, small]

def Fits (ds : Bytes) : Prop := ds.length ≤ int_max ∧ decimal ds ≤ int_max

instance (ds : Bytes) : Decidable (Fits ds) := inferInstanceAs (Decidable (_ ∧ _))

def created (ds : Bytes) : Option Value := if ds = [] then none else some (.CreateInt ds.length (decimal ds))

theorem checked_int (fits : Fits (cs.takeWhile is_digit)) :
    Checked.int_from_chars cs = some (created (cs.takeWhile is_digit)) := by
  have run : Checked.digits 0 0 cs = _ := checked_digits 0 0 cs (Nat.zero_le _) (Nat.zero_le _)
  rw [if_pos (by simpa [Fits] using fits), digits_run] at run
  rw [Checked.int_from_chars, run]
  simp only [Option.bind_eq_bind, Option.bind_some, Nat.cast_zero, zero_mul, zero_add, created]
  cases cs.takeWhile is_digit with
  | nil => rfl
  | cons d ds => rfl

theorem checked_int_overflow (large : ¬ Fits (cs.takeWhile is_digit)) : Checked.int_from_chars cs = none := by
  have run : Checked.digits 0 0 cs = _ := checked_digits 0 0 cs (Nat.zero_le _) (Nat.zero_le _)
  rw [if_neg (by simpa [Fits] using large)] at run
  rw [Checked.int_from_chars, run]
  rfl

theorem digit_begins (cs : Bytes) (digit : is_digit c = true) : endl_from_chars (c :: cs) = none ∧ is_blank c = false ∧
    simple_from_chars (c :: cs) = none ∧ str_from_chars (c :: cs) = none ∧ symbol_from_chars (c :: cs) = none := by
  have other : ∀ d : UInt8, is_digit d = false → c ≠ d := by
    rintro d no rfl
    exact nomatch digit.symm.trans no
  refine ⟨?_, ?_, ?_, ?_, ?_⟩
  · have cr := other 13 rfl
    have lf := other 10 rfl
    unfold endl_from_chars
    split <;> simp_all
  · simp [is_blank, other 32 rfl, other 9 rfl]
  · refine simple_none fun t member begins => ?_
    have heads : ∀ t ∈ simple_tokens, ∀ d ∈ t.spelling.head?, is_digit d = false := by
      decide +kernel
    cases spelled : t.spelling with
    | nil => exact spelling_ne_nil member spelled
    | cons d ds =>
      rw [spelled] at begins
      have same : d = c := (List.cons_prefix_cons.mp begins).1
      exact other d (heads t member d (by simp [spelled])) same.symm
  · rw [str_from_chars, if_pos (other 34 rfl)]
  · refine symbol_from_chars_other ?_
    simp [is_digit, is_symbol_head_ele, UInt8.le_iff_toNat_le, ← UInt8.toNat_inj] at digit ⊢
    omega

theorem checked_digit (digit : is_digit c = true) : Checked.FromChars (c :: cs) = (do
    match ← Checked.float_from_chars (c :: cs) with
    | some v => some (some v)
    | none =>
      match ← Checked.int_from_chars (c :: cs) with
      | some v => some (some v)
      | none => some ((str_from_chars (c :: cs)).or (symbol_from_chars (c :: cs)))) := by
  obtain ⟨endl, blank, simple, -, -⟩ := digit_begins cs digit
  rw [Checked.FromChars, endl, blank, simple]
  rfl

theorem drop_run (cs : Bytes) : cs.drop (cs.takeWhile is_digit).length = cs.dropWhile is_digit := by
  induction cs with
  | nil => rfl
  | cons c cs ih =>
    cases digit : is_digit c with
    | true =>
      rw [List.takeWhile_cons_of_pos digit, List.dropWhile_cons_of_pos digit]
      exact ih
    | false => simp [digit]

theorem checked_float (begins : cs.takeWhile is_digit ≠ []) (fits : Fits (cs.takeWhile is_digit)) :
    Checked.float_from_chars cs =
      match fraction (cs.dropWhile is_digit) with
      | none => some none
      | some d2 =>
        if Fits d2 ∧ (cs.takeWhile is_digit).length + d2.length + 1 ≤ int_max then
          some (some (.CreateFloat ((cs.takeWhile is_digit).length + d2.length + 1)
            ⟨decimal (cs.takeWhile is_digit), decimal d2, d2.length⟩))
        else none := by
  have run : Checked.int_from_chars cs = _ := checked_int fits
  rw [created, if_neg begins] at run
  have first : (Value.CreateInt (cs.takeWhile is_digit).length (decimal (cs.takeWhile is_digit))).len_ =
      (cs.takeWhile is_digit).length := rfl
  rw [Checked.float_from_chars, run]
  simp only [Option.bind_eq_bind, Option.bind_some, first]
  rw [drop_run]
  cases cs.dropWhile is_digit with
  | nil => rfl
  | cons c rest =>
    by_cases dot : c = 46
    · subst dot
      simp only [ne_eq, not_true_eq_false, if_false, fraction, true_and]
      by_cases empty : rest.takeWhile is_digit = []
      · have run2 : Checked.int_from_chars rest = _ := checked_int (by rw [empty]; decide)
        rw [run2, empty]
        rfl
      · rw [if_pos empty]
        by_cases fits2 : Fits (rest.takeWhile is_digit)
        · rw [checked_int fits2, created, if_neg empty]
          simp only [fits2, true_and]
          rfl
        · rw [checked_int_overflow fits2]
          simp [fits2]
    · simp [fraction, dot]

/-- A literal is read with its value, or rejected for it, exactly when nothing overflows `int`. -/
theorem literal_kept_iff (digit : is_digit c = true) :
    Checked.FromChars (c :: cs) = some (literal (c :: cs)) ↔ Representable (c :: cs) := by
  have begins : (c :: cs).takeWhile is_digit ≠ [] := by
    rw [List.takeWhile_cons_of_pos digit]
    exact List.cons_ne_nil _ _
  rw [checked_digit digit, literal, Representable]
  generalize c :: cs = cs at begins
  by_cases fits : Fits (cs.takeWhile is_digit)
  · rw [checked_float begins fits, checked_int fits, created, if_neg begins]
    cases fraction (cs.dropWhile is_digit) with
    | none => simp [fits.1, fits.2]
    | some d2 =>
      by_cases fits2 : Fits d2 ∧ (cs.takeWhile is_digit).length + d2.length + 1 ≤ int_max
      · simp [fits2, fits.1, fits.2, fits2.1.2]
        exact fits2.2
      · simp only [fits2, if_false]
        refine iff_of_false nofun fun representable => fits2 ?_
        obtain ⟨value, total⟩ := representable.2.2 d2 rfl
        exact ⟨⟨by omega, value⟩, total⟩
  · have stuck : Checked.float_from_chars cs = none := by
      rw [Checked.float_from_chars, checked_int_overflow fits]
      rfl
    rw [stuck]
    exact iff_of_false nofun fun representable => fits ⟨representable.2.1, representable.1⟩

theorem literal_kept_sample :
    Checked.FromChars (51 :: bytes ".14 ") = some (some (.CreateFloat 4 ⟨3, 14, 2⟩)) := by
  refine (literal_kept_iff rfl).mpr ⟨by decide, by decide, fun d2 found => ?_⟩
  cases found
  decide

/-- An integer just above the largest `int`, and a small number with ten digits behind the dot. -/
theorem literal_overflows :
    Checked.FromChars (bytes "2147483648 ") ≠ some (literal (bytes "2147483648 ")) ∧
      Checked.FromChars (bytes "1.9999999999 ") ≠ some (literal (bytes "1.9999999999 ")) ∧
      Checked.FromChars (bytes "2147483648 ") = none := by
  decide +kernel

end Lexer

end Mygo

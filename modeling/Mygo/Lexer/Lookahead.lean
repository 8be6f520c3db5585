import Mygo.Lexer.Literals

namespace Mygo

namespace Lexer

/-- What would go on with the token `v` of the text `u`, if it came next.  A symbol needs a byte
behind it. -/
def extends_ (u : Bytes) (v : Value) (r : Bytes) : Bool :=
  match v.type_ with
  | .Enl => u = [13] && r.head? = some 10
  | .Space => r.head?.any is_blank
  | .Int => r.head?.any is_digit || (fraction r).isSome
  | .Float => r.head?.any is_digit
  | .Symbol => r.head?.all is_symbol_ele
  | .Str => false
  | .Enf => r ≠ []
  | t => simple_tokens.any fun t' =>
    t.spelling.length < t'.spelling.length && t'.spelling.isPrefixOf (t.spelling ++ r)

variable {c : UInt8} {cs u r r' : Bytes} {v : Value} {p : UInt8 → Bool}

theorem takeWhile_text (all : ∀ c ∈ u, p c = true) : (u ++ r).takeWhile p = u ↔ r.head?.any p = false := by
  rw [List.takeWhile_append_of_pos all]
  cases r with
  | nil => simp
  | cons c r =>
    cases holds : p c with
    | true => simp [List.takeWhile_cons_of_pos holds, holds]
    | false => simp [holds]

theorem text_of_run (run : ((u ++ r).takeWhile p).length = u.length) :
    (u ++ r).takeWhile p = u ∧ ∀ c ∈ u, p c = true := by
  have begins : (u ++ r).takeWhile p <+: u ++ r := List.takeWhile_prefix _
  have same : (u ++ r).takeWhile p = u := by
    rw [List.prefix_iff_eq_take.mp begins, run, List.take_left]
  refine ⟨same, fun c member => ?_⟩
  rw [← same] at member
  exact List.all_eq_true.mp List.all_takeWhile c member

theorem head_cases (c : UInt8) :
    c = 13 ∨ c = 10 ∨ is_blank c = true ∨ is_digit c = true ∨ c = 34 ∨ plain c = true := by
  simp only [plain, Bool.and_eq_true, bne_iff_ne, Bool.not_eq_true']
  cases is_blank c
  · cases is_digit c
    · by_cases cr : c = 13
      · exact .inl cr
      · by_cases lf : c = 10
        · exact .inr (.inl lf)
        · by_cases quote : c = 34
          · exact .inr (.inr (.inr (.inr (.inl quote))))
          · exact .inr (.inr (.inr (.inr (.inr ⟨⟨⟨⟨cr, lf⟩, rfl⟩, rfl⟩, quote⟩))))
    · exact .inr (.inr (.inr (.inl rfl)))
  · exact .inr (.inr (.inl rfl))

theorem fromChars_blank (blank : is_blank c = true) :
    Value.FromChars (c :: cs) = some (.make .Space ((c :: cs).takeWhile is_blank).length) := by
  have endl : endl_from_chars (c :: cs) = none := by
    have inlined := inline_blank blank
    simp only [inline, Bool.and_eq_true, bne_iff_ne] at inlined
    unfold endl_from_chars
    split <;> simp_all
  rw [Value.FromChars, endl, blank]
  rfl

theorem fromChars_quote : Value.FromChars (34 :: cs) = str_from_chars (34 :: cs) := by
  have simple : simple_from_chars (34 :: cs) = none := by
    refine simple_none fun t member begins => ?_
    have heads : ∀ t ∈ simple_tokens, t.spelling.head? ≠ some 34 := by decide
    cases spelled : t.spelling with
    | nil => exact spelling_ne_nil member spelled
    | cons d ds =>
      rw [spelled] at begins
      have same : d = 34 := (List.cons_prefix_cons.mp begins).1
      exact heads t member (by simp [spelled, same])
  have symbol : symbol_from_chars (34 :: cs) = none := symbol_from_chars_other rfl
  have int : int_from_chars (34 :: cs) = none := rfl
  have float : float_from_chars (34 :: cs) = none := rfl
  rw [Value.FromChars, simple, float, int, symbol]
  simp [endl_from_chars, is_blank]

theorem int_run (cs : Bytes) : int_from_chars cs = created (cs.takeWhile is_digit) := by
  rw [int_from_chars, digits_run, created]
  cases cs.takeWhile is_digit with
  | nil => rfl
  | cons d ds => simp

theorem fromChars_digit (digit : is_digit c = true) : Value.FromChars (c :: cs) = some (
    let d1 := (c :: cs).takeWhile is_digit
    match fraction ((c :: cs).dropWhile is_digit) with
    | some d2 => .CreateFloat (d1.length + d2.length + 1) ⟨decimal d1, decimal d2, d2.length⟩
    | none => .CreateInt d1.length (decimal d1)) := by
  have begins : (c :: cs).takeWhile is_digit ≠ [] := by
    rw [List.takeWhile_cons_of_pos digit]
    exact List.cons_ne_nil _ _
  obtain ⟨endl, blank, simple, str, symbol⟩ := digit_begins cs digit
  rw [Value.FromChars, endl, blank, simple, str, symbol]
  generalize c :: cs = cs at begins
  have first : (Value.CreateInt (cs.takeWhile is_digit).length (decimal (cs.takeWhile is_digit))).len_ =
      (cs.takeWhile is_digit).length := rfl
  simp only [float_from_chars, int_run, created, begins, if_false, first, drop_run]
  cases cs.dropWhile is_digit with
  | nil => rfl
  | cons d rest =>
    by_cases dot : d = 46
    · by_cases empty : rest.takeWhile is_digit = []
      · simp [fraction, dot, empty]
      · simp [fraction, dot, empty, Value.CreateInt, Value.CreateFloat, Value.make]
    · simp [fraction, dot]

theorem fraction_some {ds : Bytes} (h : fraction cs = some ds) :
    ∃ rest, cs = 46 :: rest ∧ rest.takeWhile is_digit = ds ∧ ds ≠ [] := by
  cases cs with
  | nil => cases h
  | cons c rest =>
    rw [fraction] at h
    split at h
    · next both =>
      cases h
      exact ⟨rest, by rw [both.1], rfl, both.2⟩
    · cases h

theorem again_blank (blank : is_blank c = true) (h : Value.FromChars (c :: u ++ r) = some v)
    (text : v.len_ = (c :: u).length) :
    Value.FromChars (c :: u ++ r') = some v ↔ extends_ (c :: u) v r' = false := by
  rw [List.cons_append, fromChars_blank blank, ← List.cons_append] at h ⊢
  cases h
  obtain ⟨same, all⟩ := text_of_run text
  rw [same]
  change _ ↔ r'.head?.any is_blank = false
  rw [← takeWhile_text all]
  constructor
  · intro again
    have run : ((c :: u ++ r').takeWhile is_blank).length = (c :: u).length :=
      congrArg Value.len_ (Option.some.inj again)
    exact (text_of_run run).1
  · intro again
    rw [again]

theorem again_digit (digit : is_digit c = true) (h : Value.FromChars (c :: u ++ r) = some v)
    (text : v.len_ = (c :: u).length) :
    Value.FromChars (c :: u ++ r') = some v ↔ extends_ (c :: u) v r' = false := by
  rw [List.cons_append, fromChars_digit digit, ← List.cons_append] at h ⊢
  generalize c :: u = u at h text
  simp only [Option.some.injEq] at h ⊢
  cases frac : fraction ((u ++ r).dropWhile is_digit) with
  | none =>
    rw [frac] at h
    subst h
    obtain ⟨same, all⟩ := text_of_run text
    rw [same, List.takeWhile_append_of_pos all, List.dropWhile_append_of_pos all]
    change _ ↔ (r'.head?.any is_digit || (fraction r').isSome) = false
    cases r' with
    | nil => simp [fraction]
    | cons d rest =>
      cases more : is_digit d with
      | true =>
        simp only [List.head?_cons, Option.any_some, more, Bool.true_or, Bool.true_eq_false, iff_false]
        intro again
        split at again
        · cases congrArg Value.type_ again
        · have longer := congrArg Value.len_ again
          simp [Value.CreateInt, List.takeWhile_cons_of_pos more] at longer
      | false =>
        simp only [List.head?_cons, Option.any_some, more, Bool.false_or, Option.isSome_eq_false_iff,
          Option.isNone_iff_eq_none, List.takeWhile_cons_of_neg (by simp [more] : ¬ is_digit d = true),
          List.dropWhile_cons_of_neg (by simp [more] : ¬ is_digit d = true), List.append_nil]
        cases fraction (d :: rest) with
        | none => simp
        | some d2 =>
          refine iff_of_false (fun again => ?_) (by simp)
          cases congrArg Value.type_ again
  | some d2 =>
    rw [frac] at h
    subst h
    obtain ⟨rest, dotted, run, begins⟩ := fraction_some frac
    have digits1 : ∀ c ∈ (u ++ r).takeWhile is_digit, is_digit c = true := List.all_eq_true.mp List.all_takeWhile
    have digits2 : ∀ c ∈ d2, is_digit c = true := by
      rw [← run]
      exact List.all_eq_true.mp List.all_takeWhile
    have parts : u = (u ++ r).takeWhile is_digit ++ 46 :: d2 := by
      have whole : u ++ r = ((u ++ r).takeWhile is_digit ++ 46 :: d2) ++ rest.dropWhile is_digit := by
        rw [List.append_assoc, List.cons_append, ← run, List.takeWhile_append_dropWhile, ← dotted,
          List.takeWhile_append_dropWhile]
      refine (List.append_inj whole ?_).1
      rw [List.length_append, List.length_cons, ← Nat.add_assoc]
      exact text.symm
    change _ ↔ r'.head?.any is_digit = false
    generalize (u ++ r).takeWhile is_digit = d1 at digits1 parts
    subst parts
    rw [List.append_assoc, List.cons_append, List.takeWhile_append_of_pos digits1,
      List.dropWhile_append_of_pos digits1, List.takeWhile_cons_of_neg (by decide),
      List.dropWhile_cons_of_neg (by decide), List.append_nil]
    have digit2 : (d2 ++ r').takeWhile is_digit ≠ [] := by
      simp [List.takeWhile_append_of_pos digits2, begins]
    have more : fraction (46 :: (d2 ++ r')) = some ((d2 ++ r').takeWhile is_digit) := if_pos ⟨rfl, digit2⟩
    rw [more, ← takeWhile_text digits2]
    constructor
    · intro again
      have longer := congrArg Value.len_ again
      refine (text_of_run (u := d2) ?_).1
      simpa [Value.CreateFloat] using longer
    · intro again
      rw [again]

theorem str_quote (cs : Bytes) : str_from_chars (34 :: cs) =
    if (cs.takeWhile (· ≠ 34)).length = cs.length then none
    else some (.CreateStr ((cs.takeWhile (· ≠ 34)).length + 2) (cs.takeWhile (· ≠ 34))) := rfl

theorem again_quote (h : Value.FromChars (34 :: u ++ r) = some v) (text : v.len_ = (34 :: u).length) :
    Value.FromChars (34 :: u ++ r') = some v ↔ extends_ (34 :: u) v r' = false := by
  rw [List.cons_append, fromChars_quote, str_quote] at h ⊢
  split at h
  · cases h
  · next more =>
    cases h
    obtain ⟨c, rest, parts, stop⟩ := takeWhile_stops more
    have plain : ∀ c ∈ (u ++ r).takeWhile (· ≠ 34), decide (c ≠ 34) = true :=
      List.all_eq_true.mp List.all_takeWhile
    obtain rfl : c = 34 := by simpa using stop
    have closed : u = (u ++ r).takeWhile (· ≠ 34) ++ [34] := by
      have whole : u ++ r = ((u ++ r).takeWhile (· ≠ 34) ++ [34]) ++ rest := by simpa using parts
      refine (List.append_inj whole ?_).1
      rw [List.length_append]
      exact (Nat.succ.inj text).symm
    change _ ↔ false = false
    generalize (u ++ r).takeWhile (· ≠ 34) = s at plain closed
    subst closed
    have run : (s ++ [34] ++ r').takeWhile (· ≠ 34) = s := by
      rw [List.append_assoc]
      exact (takeWhile_text plain).mpr rfl
    rw [run, if_neg (by simp)]
    exact iff_of_true rfl rfl

theorem simple_again {t : TokenType} (member : t ∈ simple_tokens) :
    simple_from_chars (t.spelling ++ r) = some (.make t t.spelling.length) ↔
      (simple_tokens.any fun t' => t.spelling.length < t'.spelling.length &&
        t'.spelling.isPrefixOf (t.spelling ++ r)) = false := by
  simp only [List.any_eq_false, Bool.and_eq_true, decide_eq_true_eq, List.isPrefixOf_iff_prefix, not_and]
  constructor
  · intro found t' member' longer begins
    obtain ⟨t₀, first, same⟩ := Option.map_eq_some_iff.mp found
    obtain rfl : t₀ = t := congrArg Value.type_ same
    have found : Prefix.first TokenType.spelling simple_tokens (t₀.spelling ++ r) = some t₀ := first
    exact absurd (Prefix.longest_first ordered found member' begins) (Nat.not_le.mpr longer)
  · intro longest
    refine simple_longest member (List.prefix_append _ _) fun t' member' begins => ?_
    exact Nat.le_of_not_lt fun longer => longest t' member' longer begins

theorem extends_simple {t : TokenType} (member : t ∈ simple_tokens) {n : Nat} :
    extends_ u (.make t n) r = simple_tokens.any fun t' => t.spelling.length < t'.spelling.length &&
      t'.spelling.isPrefixOf (t.spelling ++ r) := by
  cases t <;> first | rfl | exact absurd member (by decide)

theorem again_plain (head : plain c = true) (h : Value.FromChars (c :: u ++ r) = some v)
    (text : v.len_ = (c :: u).length) :
    Value.FromChars (c :: u ++ r') = some v ↔ extends_ (c :: u) v r' = false := by
  rw [List.cons_append, fromChars_plain head, ← List.cons_append] at h ⊢
  cases found : simple_from_chars (c :: u ++ r) with
  | some w =>
    rw [found] at h
    cases h
    obtain ⟨t, member, begins, rfl⟩ := simple_some found
    have spelled : t.spelling = c :: u := by
      have size : t.spelling.length = (c :: u).length := text
      rw [List.prefix_iff_eq_take.mp begins, size, List.take_left]
    rw [extends_simple member, ← simple_again member, ← spelled, Option.or_eq_some_iff]
    refine or_iff_left ?_
    rintro ⟨none, -⟩
    exact Prefix.first_none.mp (Option.map_eq_none_iff.mp none) t member (List.prefix_append _ _)
  | none =>
    rw [found, Option.none_or] at h
    have nothing := Prefix.first_none.mp (Option.map_eq_none_iff.mp found)
    cases letter : is_symbol_head_ele c with
    | false =>
      rw [List.cons_append, symbol_from_chars_other letter] at h
      cases h
    | true =>
      rw [List.cons_append, symbol_from_chars_head letter, ← List.cons_append] at h
      split at h
      · cases h
      · cases h
        obtain ⟨same, all⟩ := text_of_run text
        rw [word, same]
        change _ ↔ r'.head?.all is_symbol_ele = false
        have ends : r'.head?.all is_symbol_ele = false ↔ r'.head?.any is_symbol_ele = false ∧ r' ≠ [] := by
          cases r' with
          | nil => simp
          | cons d r' => simp
        rw [ends, ← takeWhile_text all, Option.or_eq_some_iff]
        constructor
        · rintro (simple | ⟨-, symbol⟩)
          · obtain ⟨t, member, -, kind⟩ := simple_some simple
            exact absurd (congrArg Value.type_ kind).symm (simple_type t member)
          · rw [List.cons_append, symbol_from_chars_head letter, ← List.cons_append] at symbol
            split at symbol
            · cases symbol
            · next more =>
              have run : word (c :: u ++ r') = c :: u := congrArg Value.str_data_ (Option.some.inj symbol)
              refine ⟨run, ?_⟩
              rintro rfl
              rw [run, List.append_nil] at more
              exact more rfl
        · rintro ⟨run, more⟩
          have whole : word (c :: u ++ r') ≠ c :: u ++ r' := by
            rw [word, run]
            simpa using more
          refine .inr ⟨simple_none fun t member begins => ?_, ?_⟩
          · have inside : t.spelling <+: word (c :: u ++ r') := (spelling_prefix_word letter member begins).1
            rw [word, run] at inside
            exact nothing t member (inside.trans (List.prefix_append _ _))
          · rw [List.cons_append, symbol_from_chars_head letter, ← List.cons_append, if_neg whole, word, run]

theorem fromChars_feed : Value.FromChars (10 :: cs) = some (.make .Enl 1) := by
  simp [Value.FromChars, endl_from_chars]

theorem fromChars_return (cs : Bytes) :
    Value.FromChars (13 :: cs) = some (.make .Enl (if cs.head? = some 10 then 2 else 1)) := by
  cases cs with
  | nil => rfl
  | cons c cs =>
    by_cases feed : c = 10
    · subst feed
      rfl
    · simp [Value.FromChars, endl_from_chars, feed]

theorem again_return (h : Value.FromChars (13 :: u ++ r) = some v) (text : v.len_ = (13 :: u).length) :
    Value.FromChars (13 :: u ++ r') = some v ↔ extends_ (13 :: u) v r' = false := by
  rw [List.cons_append, fromChars_return] at h ⊢
  cases h
  by_cases feed : (u ++ r).head? = some 10
  · rw [if_pos feed] at text ⊢
    obtain ⟨d, rfl⟩ := List.length_eq_one_iff.mp (Nat.succ.inj text.symm)
    obtain rfl : d = 10 := Option.some.inj feed
    exact iff_of_true rfl rfl
  · rw [if_neg feed] at text ⊢
    obtain rfl : u = [] := List.length_eq_zero_iff.mp (Nat.succ.inj text.symm)
    change _ ↔ decide (r'.head? = some 10) = false
    rw [List.nil_append, decide_eq_false_iff_not]
    by_cases next : r'.head? = some 10
    · rw [if_pos next]
      exact iff_of_false (fun again => nomatch congrArg Value.len_ (Option.some.inj again)) fun stop => stop next
    · rw [if_neg next]
      exact iff_of_true rfl next

theorem again_feed (h : Value.FromChars (10 :: u ++ r) = some v) (text : v.len_ = (10 :: u).length) :
    Value.FromChars (10 :: u ++ r') = some v ↔ extends_ (10 :: u) v r' = false := by
  rw [List.cons_append, fromChars_feed] at h ⊢
  cases h
  obtain rfl : u = [] := List.length_eq_zero_iff.mp (Nat.succ.inj text.symm)
  exact iff_of_true rfl rfl

/-- A token is read again with something else behind its text exactly when that does not go on with
the token. -/
theorem fromChars_again (h : Value.FromChars (u ++ r) = some v) (text : v.len_ = u.length) :
    Value.FromChars (u ++ r') = some v ↔ extends_ u v r' = false := by
  cases u with
  | nil =>
    cases r with
    | nil =>
      cases h
      change _ ↔ decide (r' ≠ []) = false
      cases r' with
      | nil => exact iff_of_true rfl rfl
      | cons c r' =>
        refine iff_of_false (fun again => ?_) (by simp)
        exact (fromChars_covers again).inside rfl
    | cons c r => exact absurd text (Nat.ne_of_gt (fromChars_covers h).positive)
  | cons c u =>
    rcases head_cases c with rfl | rfl | blank | digit | rfl | head
    · exact again_return h text
    · exact again_feed h text
    · exact again_blank blank h text
    · exact again_digit digit h text
    · exact again_quote h text
    · exact again_plain head h text

end Lexer

end Mygo

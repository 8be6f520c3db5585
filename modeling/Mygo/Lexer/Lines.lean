import Mygo.Lexer.Lookahead

namespace Mygo

namespace Lexer

/-- What repeated calls of `FromChars` give, up to `Enf` or to where nothing is recognised. -/
def lexed : Nat → Bytes → List Value
  | 0, _ => []
  | rounds + 1, cs =>
    match Value.FromChars cs with
    | none => []
    | some v => if v.type_ = .Enf then [v] else v :: lexed rounds (cs.drop v.len_)

def sequence (cs : Bytes) : List Value := lexed (cs.length + 1) cs

def Complete (cs : Bytes) : Prop := (sequence cs).getLast? = some (.make .Enf 0)

variable {cs u r t : Bytes} {v : Value}

theorem fromChars_inside (more : cs ≠ []) (h : Value.FromChars cs = some v) : Covers cs v := by
  cases cs with
  | nil => exact absurd rfl more
  | cons c cs => exact fromChars_covers h

theorem lexed_enough {rounds rounds' : Nat} (enough : cs.length < rounds) (enough' : cs.length < rounds') :
    lexed rounds cs = lexed rounds' cs := by
  induction rounds generalizing cs rounds' with
  | zero => exact absurd enough (Nat.not_lt_zero _)
  | succ rounds ih =>
    cases rounds' with
    | zero => exact absurd enough' (Nat.not_lt_zero _)
    | succ rounds' =>
      rw [lexed, lexed]
      cases here : Value.FromChars cs with
      | none => rfl
      | some v =>
        simp only
        split
        · rfl
        · next other =>
          have covers : Covers cs v := by
            refine fromChars_inside ?_ here
            rintro rfl
            cases here
            exact other rfl
          have shorter : (cs.drop v.len_).length < cs.length := by
            rw [List.length_drop]
            have := covers.positive
            have := covers.within
            omega
          exact congrArg (v :: ·) (ih (by omega) (by omega))

theorem sequence_nil : sequence [] = [.make .Enf 0] := rfl

theorem sequence_none (stuck : Value.FromChars cs = none) : sequence cs = [] := by
  rw [sequence, lexed, stuck]

theorem sequence_cons (more : u ≠ []) (h : Value.FromChars (u ++ r) = some v) (text : v.len_ = u.length) :
    sequence (u ++ r) = v :: sequence r := by
  have covers := fromChars_inside (by simp [more]) h
  have positive := List.length_pos_of_ne_nil more
  rw [sequence, lexed, h]
  simp only [covers.inside, if_false, text, List.drop_left]
  rw [sequence, lexed_enough]
  · rw [List.length_append]
    omega
  · exact Nat.lt_succ_self _

theorem takeWhile_line {p : UInt8 → Bool} (line : r.getLast? = some 10) (stop : p 10 = false) :
    (r ++ t).takeWhile p = r.takeWhile p := by
  have feed : 10 ∈ r := List.mem_of_getLast? line
  rw [List.takeWhile_append, if_neg]
  intro whole
  have all : r.takeWhile p = r := (List.takeWhile_prefix p).eq_of_length whole
  rw [← all] at feed
  have holds := List.all_eq_true.mp List.all_takeWhile 10 feed
  exact nomatch holds.symm.trans stop

theorem prefix_before {c : UInt8} {x b : Bytes} (absent : c ∉ x) (begins : x <+: r ++ c :: b) : x <+: r := by
  refine List.prefix_of_prefix_length_le begins (List.prefix_append _ _) (Nat.le_of_not_lt fun longer => ?_)
  have inside : r ++ [c] <+: x := by
    refine List.prefix_of_prefix_length_le ?_ begins (by simpa using longer)
    exact ⟨b, by simp⟩
  exact absent (inside.subset (by simp))

theorem spelling_line {k : TokenType} (member : k ∈ simple_tokens) (line : r.getLast? = some 10)
    (begins : k.spelling <+: r ++ t) : k.spelling <+: r := by
  have spelled : ∀ k ∈ simple_tokens, 10 ∉ k.spelling := by decide
  obtain ⟨r', rfl⟩ := List.getLast?_eq_some_iff.mp line
  rw [List.append_assoc] at begins
  exact (prefix_before (spelled k member) begins).trans (List.prefix_append r' [10])

theorem extends_lines (line : r.getLast? = some 10) (stops : extends_ u v r = false) :
    extends_ u v (r ++ t) = false := by
  obtain ⟨c, rest, rfl⟩ : ∃ c rest, r = c :: rest := by
    cases r with
    | nil => cases line
    | cons c rest => exact ⟨c, rest, rfl⟩
  have same : fraction (c :: rest ++ t) = fraction (c :: rest) := by
    rw [List.cons_append, fraction, fraction]
    by_cases dot : c = 46
    · have behind : rest.getLast? = some 10 := by
        cases rest with
        | nil =>
          subst dot
          cases line
        | cons d rest => rwa [List.getLast?_cons_cons] at line
      rw [takeWhile_line behind rfl]
    · rw [if_neg fun both => dot both.1, if_neg fun both => dot both.1]
  have longer : ∀ k : TokenType, (simple_tokens.any fun t' => k.spelling.length < t'.spelling.length &&
        t'.spelling.isPrefixOf (k.spelling ++ (c :: rest))) = false →
      (simple_tokens.any fun t' => k.spelling.length < t'.spelling.length &&
        t'.spelling.isPrefixOf (k.spelling ++ (c :: rest ++ t))) = false := by
    intro k
    simp only [List.any_eq_false, Bool.and_eq_true, decide_eq_true_eq, List.isPrefixOf_iff_prefix, not_and]
    intro none t' member long begins
    refine none t' member long (spelling_line (t := t) member ?_ ?_)
    · rw [List.getLast?_append, line]
      rfl
    · rwa [List.append_assoc]
  rw [extends_] at stops ⊢
  split at stops <;> simp_all

theorem extends_line (line : u.getLast? = some 10) (h : Value.FromChars u = some v) (text : v.len_ = u.length) :
    extends_ u v t = false := by
  by_cases endl : v.type_ = .Enl
  · have other : u ≠ [13] := by
      rintro rfl
      cases line
    simp [extends_, endl, other]
  · by_cases string : v.type_ = .Str
    · simp [extends_, string]
    · have plain := fromChars_inline h endl string 10
      rw [text, List.take_length] at plain
      exact nomatch plain (List.mem_of_getLast? line)

theorem sequence_append (line : cs.getLast? = some 10) (complete : Complete cs) :
    sequence (cs ++ t) = (sequence cs).dropLast ++ sequence t := by
  induction size : cs.length using Nat.strongRecOn generalizing cs with
  | ind n ih =>
    have more : cs ≠ [] := by
      rintro rfl
      cases line
    cases here : Value.FromChars cs with
    | none =>
      rw [Complete, sequence_none here] at complete
      cases complete
    | some v =>
      have covers := fromChars_inside more here
      obtain ⟨u, r, rfl, text⟩ : ∃ u r, cs = u ++ r ∧ v.len_ = u.length :=
        ⟨_, _, (List.take_append_drop v.len_ cs).symm, by rw [List.length_take]; have := covers.within; omega⟩
      have begins : u ≠ [] := by
        rintro rfl
        exact absurd text (Nat.ne_of_gt covers.positive)
      have stops := (fromChars_again here text).mp here
      rw [Complete, sequence_cons begins here text] at complete
      rw [sequence_cons begins here text, List.append_assoc]
      by_cases last : r = []
      · subst last
        rw [List.append_nil] at here line
        have again := (fromChars_again (r := []) (by simpa using here) text).mpr (extends_line (t := t) line here text)
        rw [List.nil_append, sequence_cons begins again text, sequence_nil]
        rfl
      · have rest : r.getLast? = some 10 := by
          rwa [List.getLast?_append_of_ne_nil _ last] at line
        have again := (fromChars_again here text).mpr (extends_lines (t := t) rest stops)
        have follows : sequence r ≠ [] := by
          intro none
          rw [none] at complete
          exact covers.inside (congrArg Value.type_ (Option.some.inj complete))
        have behind : Complete r := by
          rwa [List.getLast?_cons_of_ne_nil follows] at complete
        rw [sequence_cons begins again text, ih r.length ?_ rest behind rfl, List.dropLast_cons_of_ne_nil follows]
        · rfl
        · have := List.length_pos_of_ne_nil begins
          simp only [← size, List.length_append]
          omega

/-- The tokens of lines that are recognised and of what follows them are those of both on their
own. -/
theorem sequence_lines (s t : Bytes) (complete : Complete (s ++ [10])) :
    sequence (s ++ [10] ++ t) = (sequence (s ++ [10])).dropLast ++ sequence t :=
  sequence_append (by simp) complete

theorem sequence_lines_sample : sequence (bytes "x=\"a b\"" ++ [10] ++ bytes "1.5\"") =
    (sequence (bytes "x=\"a b\"" ++ [10])).dropLast ++ sequence (bytes "1.5\"") :=
  sequence_lines _ _ (by unfold Complete; decide +kernel)

end Lexer

end Mygo

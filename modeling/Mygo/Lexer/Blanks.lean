import Mygo.Lexer.Lines

namespace Mygo

namespace Lexer

/-- A token of a text ends where its second part begins. -/
inductive Seam : Bytes → Bytes → Prop
  | here : Seam [] b
  | token : Value.FromChars (u ++ (a ++ b)) = some v → v.len_ = u.length → u ≠ [] → Seam a b → Seam (u ++ a) b

def words (cs : Bytes) : List Value := (sequence cs).filter (·.type_ ≠ .Space)

variable {c : UInt8} {u r r' a b x blanks : Bytes} {v : Value}

theorem blank_cases (blank : is_blank c = true) : c = 32 ∨ c = 9 := by
  simpa [is_blank] using blank

theorem fraction_blank (r r' b : Bytes) (blank : is_blank c = true) (whole : fraction (r ++ r') = none) :
    fraction (r ++ c :: b) = none := by
  have digit : is_digit c = false := by
    rcases blank_cases blank with rfl | rfl <;> rfl
  cases r with
  | nil =>
    have dot : c ≠ 46 := by
      rcases blank_cases blank with rfl | rfl <;> decide
    exact if_neg fun both => dot both.1
  | cons d r =>
    rw [List.cons_append, fraction] at whole ⊢
    refine if_neg fun both => ?_
    cases r with
    | nil => exact both.2 (List.takeWhile_cons_of_neg (by simp [digit]))
    | cons e r =>
      rw [List.cons_append] at whole both
      have first : is_digit e = false := by
        by_contra other
        rw [if_pos ⟨both.1, by simp [List.takeWhile_cons_of_pos (Bool.not_eq_false _ ▸ other)]⟩] at whole
        cases whole
      exact both.2 (List.takeWhile_cons_of_neg (by simp [first]))

theorem longer_blank (r r' b : Bytes) (blank : is_blank c = true) (k : TokenType)
    (stops : (simple_tokens.any fun t' => k.spelling.length < t'.spelling.length &&
      t'.spelling.isPrefixOf (k.spelling ++ (r ++ r'))) = false) :
    (simple_tokens.any fun t' => k.spelling.length < t'.spelling.length &&
      t'.spelling.isPrefixOf (k.spelling ++ (r ++ c :: b))) = false := by
  have spelled : ∀ t ∈ simple_tokens, 32 ∉ t.spelling ∧ 9 ∉ t.spelling := by decide
  simp only [List.any_eq_false, Bool.and_eq_true, decide_eq_true_eq, List.isPrefixOf_iff_prefix, not_and] at stops ⊢
  intro t' member long begins
  have absent : c ∉ t'.spelling := by
    rcases blank_cases blank with rfl | rfl
    · exact (spelled t' member).1
    · exact (spelled t' member).2
  rw [← List.append_assoc] at begins
  have before := prefix_before absent begins
  exact stops t' member long (before.trans ⟨r', by simp⟩)

theorem extends_blank (blank : is_blank c = true) (inside : v.type_ ≠ .Enf) (apart : v.type_ = .Space → r ≠ [])
    (stops : extends_ u v (r ++ r') = false) : extends_ u v (r ++ c :: b) = false := by
  have longer := longer_blank r r' b blank
  have part := fraction_blank r r' b blank
  have other : is_digit c = false ∧ is_symbol_ele c = false ∧ c ≠ 10 := by
    rcases blank_cases blank with rfl | rfl <;> decide
  rw [extends_] at stops ⊢
  cases r with
  | nil => split at stops <;> simp_all
  | cons d r => split at stops <;> simp_all

theorem words_none (stuck : Value.FromChars a = none) : words a = [] := by
  rw [words, sequence_none stuck]
  rfl

theorem words_token (h : Value.FromChars (u ++ r) = some v) (text : v.len_ = u.length) (more : u ≠ [])
    (word : v.type_ ≠ .Space) : words (u ++ r) = v :: words r := by
  rw [words, sequence_cons more h text, List.filter_cons_of_pos (by simpa using word)]
  rfl

theorem words_space (h : Value.FromChars (u ++ r) = some v) (text : v.len_ = u.length) (more : u ≠ [])
    (space : v.type_ = .Space) : words (u ++ r) = words r := by
  rw [words, sequence_cons more h text, List.filter_cons_of_neg (by simpa using space)]
  rfl

theorem words_trim (a : Bytes) : words (a.dropWhile is_blank) = words a := by
  cases a with
  | nil => rfl
  | cons c a =>
    by_cases blank : is_blank c = true
    · have run : Value.FromChars (c :: a) = some _ := fromChars_blank blank
      rw [List.takeWhile_cons_of_pos blank] at run
      have split_ : c :: a = (c :: a.takeWhile is_blank) ++ a.dropWhile is_blank := by
        rw [List.cons_append, List.takeWhile_append_dropWhile]
      rw [List.dropWhile_cons_of_pos blank]
      rw [split_] at run ⊢
      exact (words_space run rfl (List.cons_ne_nil _ _) rfl).symm
    · rw [List.dropWhile_cons_of_neg blank]

theorem words_blanks (all : ∀ c ∈ blanks, is_blank c = true) : words (blanks ++ b) = words b := by
  rw [← words_trim, List.dropWhile_append_of_pos all, words_trim]

theorem space_blank (h : Value.FromChars (u ++ r) = some v) (text : v.len_ = u.length) (space : v.type_ = .Space) :
    ∀ c ∈ u, is_blank c = true := by
  cases u with
  | nil => exact nofun
  | cons c u =>
    rw [List.cons_append] at h
    obtain ⟨-, rfl⟩ := fromChars_space h space
    rw [← List.cons_append, Value.len_make] at text
    exact (text_of_run text).2

theorem Seam.again (h : Value.FromChars (u ++ (a ++ b)) = some v) (text : v.len_ = u.length) (more : u ≠ [])
    (apart : v.type_ = .Space → a ≠ []) (all : ∀ c ∈ blanks, is_blank c = true) :
    Value.FromChars (u ++ (a ++ (blanks ++ b))) = some v := by
  cases blanks with
  | nil => exact h
  | cons c blanks =>
    have covers := fromChars_inside (by simp [more]) h
    refine (fromChars_again h text).mpr ?_
    exact extends_blank (all c (List.mem_cons_self)) covers.inside apart ((fromChars_again h text).mp h)

theorem words_seam (seam : Seam a b) (all : ∀ c ∈ blanks, is_blank c = true) :
    words (a ++ (blanks ++ b)) = words (a ++ b) := by
  induction seam with
  | here => exact words_blanks all
  | @token u a b v h text more seam ih =>
    rw [List.append_assoc, List.append_assoc]
    by_cases last : v.type_ = .Space ∧ a = []
    · obtain ⟨space, rfl⟩ := last
      rw [List.nil_append, List.nil_append, words_blanks (space_blank h text space),
        words_blanks (space_blank h text space), words_blanks all]
    · have again := Seam.again h text more (fun space none => last ⟨space, none⟩) all
      by_cases space : v.type_ = .Space
      · rw [words_space again text more space, words_space h text more space, ih]
      · rw [words_token again text more space, words_token h text more space, ih]

/-- What a parser sees that does not go past spaces before its first token. -/
def visible (cs : Bytes) : List Value :=
  match sequence cs with
  | [] => []
  | v :: vs => v :: vs.filter (·.type_ ≠ .Space)

theorem visible_word (h : Value.FromChars (u ++ r) = some v) (text : v.len_ = u.length) (more : u ≠ []) :
    visible (u ++ r) = v :: words r := by
  rw [visible, sequence_cons more h text]
  rfl

/-- Blanks behind the first token change nothing, and before it make spaces the first. -/
theorem visible_seam (seam : Seam a b) (word : ∀ v ∈ (visible (a ++ b)).head?, v.type_ ≠ .Space) (begun : a ≠ [])
    (all : ∀ c ∈ blanks, is_blank c = true) : visible (a ++ (blanks ++ b)) = visible (a ++ b) := by
  cases seam with
  | here => exact absurd rfl begun
  | @token u a _ v h text more seam =>
    rw [List.append_assoc] at word ⊢
    rw [List.append_assoc]
    rw [visible_word h text more] at word ⊢
    have other := word v rfl
    rw [visible_word (Seam.again h text more (fun space => absurd space other) all) text more, words_seam seam all]

end Lexer

end Mygo

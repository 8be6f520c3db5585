import Mygo.Lexer.Blanks
import Mygo.Parser.Similar
import Mygo.Stream.Walk

namespace Mygo

open Lexer Parser

namespace TokenStream

variable {src : Bytes} {p q : Nat} {l m : Loc} {v : Value} {vs : List Value}

theorem token_split (h : token src p = some v) :
    ∃ u, src.drop p = u ++ src.drop (p + v.len_) ∧ v.len_ = u.length := by
  refine ⟨(src.drop p).take v.len_, ?_, ?_⟩
  · rw [← List.drop_drop, List.take_append_drop]
  · have within : v.len_ ≤ (src.drop p).length := by
      by_cases inside : p < src.length
      · have bounds := token_inside inside h
        rw [List.length_drop]
        omega
      · rw [token_end (Nat.le_of_not_lt inside)] at h
        cases h
        exact Nat.zero_le _
    rw [List.length_take, Nat.min_eq_left within]

theorem visible_token (h : token src p = some v) (inside : v.type_ ≠ .Enf) :
    visible (src.drop p) = v :: words (src.drop (p + v.len_)) := by
  obtain ⟨u, parts, text⟩ := token_split h
  have more : u ≠ [] := by
    rintro rfl
    exact inside (by rw [token_empty h text]; rfl)
  rw [token, parts] at h
  rw [parts, visible_word h text more]

theorem visible_end (h : token src p = some v) (enf : v.type_ = .Enf) : visible (src.drop p) = [v] := by
  have outside := (token_enf h).mp enf
  rw [token_end outside] at h
  cases h
  rw [List.drop_eq_nil_of_le outside]
  rfl

theorem visible_none (h : token src p = none) : visible (src.drop p) = [] := by
  rw [visible, sequence_none h]

theorem words_spaces (tiles : Tiles src p l vs q m) (spaces : Spaces vs) :
    words (src.drop p) = words (src.drop q) := by
  induction tiles with
  | nil => rfl
  | @cons p v l vs q m first rest ih =>
    obtain ⟨space, others⟩ := List.forall_mem_cons.mp spaces
    obtain ⟨u, parts, text⟩ := token_split first
    have more : u ≠ [] := by
      rintro rfl
      rw [token_empty first text] at space
      cases space
    rw [← ih others, parts]
    rw [token, parts] at first
    exact words_space first text more space

theorem words_visible (h : token src p = some v) (word : v.type_ ≠ .Space) :
    words (src.drop p) = visible (src.drop p) := by
  rw [words, visible]
  cases parts : sequence (src.drop p) with
  | nil => rfl
  | cons w ws =>
    have same : w = v := by
      by_cases enf : v.type_ = .Enf
      · have end_ := visible_end h enf
        rw [visible, parts] at end_
        exact (List.cons.inj end_).1
      · have first := visible_token h enf
        rw [visible, parts] at first
        exact (List.cons.inj first).1
    subst same
    exact List.filter_cons_of_pos (by simpa using word)

theorem visible_head (h : token src p = some v) : ∃ vs, visible (src.drop p) = v :: vs := by
  by_cases enf : v.type_ = .Enf
  · exact ⟨[], visible_end h enf⟩
  · exact ⟨_, visible_token h enf⟩

/-- A stream and the tokens that are seen from its position on. -/
structure Shows (src : Bytes) (s : TokenStream) (t : Tokens) : Prop where
  coherent : Coherent s
  source : s.src_ = src
  tokens : t.rest = visible (src.drop s.state_.pos)

theorem shows_init (src : Bytes) : Shows src (init src) ⟨visible src⟩ := ⟨coherent_init src, rfl, rfl⟩

theorem Shows.peeks {s : TokenStream} {t : Tokens} (shows_ : Shows src s t) :
    s.Peek = none ∧ t.Peek = none ∨
      ∃ v w s' t', s.Peek = some (some v, s') ∧ t.Peek = some (some w, t') ∧ v.Alike w ∧ Shows src s' t' := by
  obtain ⟨coherent, rfl, tokens⟩ := shows_
  cases here : token s.src_ s.state_.pos with
  | none =>
    rw [visible_none here] at tokens
    exact .inl ⟨coherent.peek_none here, by rw [Tokens.Peek, tokens]⟩
  | some v =>
    obtain ⟨vs, first⟩ := visible_head here
    right
    refine ⟨_, v, _, t, coherent.peek here, by rw [Tokens.Peek, tokens, first], ?_, ?_, rfl, tokens⟩
    · split
      · rfl
      · rfl
    · exact coherent_settled coherent.located here

theorem Shows.nexts {s : TokenStream} {t : Tokens} (shows_ : Shows src s t) :
    s.Next = none ∧ t.Next = none ∨ ∃ s' t', s.Next = some s' ∧ t.Next = some t' ∧ Shows src s' t' := by
  obtain ⟨coherent, rfl, tokens⟩ := shows_
  cases here : token s.src_ s.state_.pos with
  | none =>
    rw [visible_none here] at tokens
    exact .inl ⟨coherent.next_none here, by rw [Tokens.Next, tokens]⟩
  | some v =>
    obtain ⟨spaces, q, m, tiles, all, ends⟩ := coherent.next here
    have located := coherent.located.next tiles
    by_cases enf : v.type_ = .Enf
    · -- at the end both stay where they are
      have outside := (token_enf here).mp enf
      have still : token s.src_ q = some (.make .Enf 0) := token_end (outside.trans tiles.le)
      have same := Option.some.inj (here.symm.trans (token_end outside))
      rcases ends with ⟨stuck, -⟩ | ⟨w, there, -, next⟩
      · cases still.symm.trans stuck
      · right
        refine ⟨_, t, next, by rw [Tokens.Next, tokens, visible_end here enf]; exact if_pos enf, ?_, rfl, ?_⟩
        · exact coherent_settled located there
        · rw [tokens, visible_end here enf, same]
          exact (visible_end still rfl).symm
    · cases tiles with
      | cons first rest =>
        have behind : t.rest = v :: words (s.src_.drop q) := by
          rw [tokens, visible_token here enf, words_spaces rest all]
        rcases ends with ⟨stuck, none⟩ | ⟨w, there, word, next⟩
        · left
          have nothing : words (s.src_.drop q) = [] := words_none stuck
          refine ⟨none, ?_⟩
          rw [Tokens.Next, behind, nothing]
          simp [enf]
        · right
          have seen := words_visible there word
          obtain ⟨ws, head⟩ := visible_head there
          refine ⟨_, ⟨words (s.src_.drop q)⟩, next, ?_, coherent_settled located there, rfl, seen⟩
          rw [Tokens.Next, behind]
          simp [enf, seen, head]

theorem similar_shows (src : Bytes) : Similar (Shows src) where
  peeks _ _ := Shows.peeks
  nexts _ _ := Shows.nexts
  loads s t s' t' shows_ shows_' := by
    refine ⟨shows_.coherent.Load ?_, shows_.source, shows_'.tokens⟩
    rw [shows_.source, ← shows_'.source]
    exact shows_'.coherent.located

theorem Tiles.seam (tiles : Tiles src p l vs q m) : Seam ((src.drop p).take (q - p)) (src.drop q) := by
  induction tiles with
  | nil =>
    rw [Nat.sub_self]
    exact .here
  | @cons p v l vs q m first rest ih =>
    have further := rest.le
    obtain ⟨u, parts, text⟩ := token_split first
    by_cases empty : v.len_ = 0
    · rwa [empty, Nat.add_zero] at ih
    · have more : u ≠ [] := by
        rintro rfl
        exact empty text
      have whole : (src.drop (p + v.len_)).take (q - (p + v.len_)) ++ src.drop q = src.drop (p + v.len_) := by
        conv_rhs => rw [← List.take_append_drop (q - (p + v.len_)) (src.drop (p + v.len_)), List.drop_drop]
        rw [Nat.add_sub_cancel' further]
      have split_ : (src.drop p).take (q - p) = u ++ (src.drop (p + v.len_)).take (q - (p + v.len_)) := by
        rw [parts, List.take_append, text, List.take_of_length_le (by omega), Nat.sub_sub]
      rw [split_]
      refine .token ?_ text more ih
      rw [whole, ← parts]
      exact first

end TokenStream

open TokenStream

def Accepts (src : Bytes) (tree : Root) : Prop := ∃ rounds s, Root.parse rounds (TokenStream.init src) = .ok tree s

theorem accepts_visible {src src' : Bytes} {tree : Root} (accepted : Accepts src tree)
    (same : visible src' = visible src) : ∃ tree', Accepts src' tree' ∧ tree'.erase = tree.erase := by
  obtain ⟨rounds, s, run⟩ := accepted
  have tokens := (similar_shows src).root rounds _ _ (shows_init src)
  have again := (similar_shows src').root rounds _ _ (shows_init src')
  rw [run] at tokens
  obtain ⟨tree₀, t, run₀, same₀, -⟩ := tokens.ok_left
  rw [same, run₀] at again
  obtain ⟨tree', s', run', same', -⟩ := again.ok_right
  exact ⟨tree', ⟨rounds, s', run'⟩, same'.trans same₀.symm⟩

/-- Spaces are skipped by `Next` only: a source that begins with them has no statement, and does not end
there. -/
theorem space_first {rounds : Nat} {v : Value} {ts : List Value} {tree : Root} {t : Tokens}
    (space : v.type_ = .Space) : Root.parse rounds ⟨v :: ts⟩ ≠ .ok tree t := by
  intro run
  cases rounds with
  | zero => cases run
  | succ rounds =>
    cases rounds with
    | zero =>
      have nothing : Block.parse 1 (⟨v :: ts⟩ : Tokens) = .out_of_fuel := rfl
      simp [Root.parse, guard, guarded, run_bind, attempt, nothing] at run
    | succ rounds =>
      have line : ¬ v.type_ = .Enl := by simp [space]
      have closed : Block.closes v.type_ = true := by rw [space]; rfl
      have nodes : Block.parse_nodes (Block.parse (rounds + 1)) (rounds + 1) 100000 ⟨v :: ts⟩ =
          .ok [] (⟨v :: ts⟩ : Tokens) := by
        rw [Block.parse_nodes, bind_ok (skip_token_stop line), bind_ok (Block.first_of_none closed)]
        rfl
      have block := Block.parse_ok nodes
      have fails : Root.parse (rounds + 2) (⟨v :: ts⟩ : Tokens) =
          .err (.make .init ("expect token " ++ TokenType.Enf.stringized)) ⟨v :: ts⟩ := by
        apply guard_err
        rw [bind_ok (attempt_ok block)]
        simp only
        rw [bind_ok (skip_token_stop line)]
        exact bind_err (expect_token_other (by simp [space]))
      cases fails.symm.trans run

theorem accepted_word {src : Bytes} {tree : Root} (accepted : Accepts src tree) :
    ∀ v ∈ (visible src).head?, v.type_ ≠ .Space := by
  intro v first space
  obtain ⟨vs, seen⟩ := List.head?_eq_some_iff.mp first
  obtain ⟨rounds, s, run⟩ := accepted
  have tokens := (similar_shows src).root rounds _ _ (shows_init src)
  rw [run, seen] at tokens
  obtain ⟨tree', t, run', -⟩ := tokens.ok_left
  exact space_first space run'

/-- Blanks between two tokens of an accepted source, or behind the last one, leave it accepted with the same
tree; before the first one they do not. -/
theorem blanks_between_iff {src blanks : Bytes} {tree : Root} {p : Nat} {l : Loc} {vs : List Value}
    (accepted : Accepts src tree) (tiles : Tiles src 0 .init vs p l) (some_ : blanks ≠ [])
    (all : ∀ c ∈ blanks, c = 32 ∨ c = 9) :
    (∃ tree', Accepts (src.take p ++ (blanks ++ src.drop p)) tree' ∧ tree'.erase = tree.erase) ↔ p ≠ 0 := by
  have blank : ∀ c ∈ blanks, is_blank c = true := fun c member => by simpa [is_blank] using all c member
  constructor
  · rintro ⟨tree', accepted', -⟩ rfl
    cases blanks with
    | nil => exact some_ rfl
    | cons c blanks =>
      have here : token (c :: blanks ++ src) 0 = some _ := fromChars_blank (blank c List.mem_cons_self)
      obtain ⟨vs, spaces⟩ := visible_head here
      rw [List.drop_zero] at spaces
      rw [List.take_zero, List.nil_append, List.drop_zero] at accepted'
      exact accepted_word accepted' _ (congrArg List.head? spaces) rfl
  · intro begun
    have seam := tiles.seam
    rw [Nat.sub_zero, List.drop_zero] at seam
    refine accepts_visible accepted ?_
    have word := accepted_word accepted
    rw [← List.take_append_drop p src] at word
    rw [visible_seam seam word ?_ blank, List.take_append_drop]
    intro none
    rcases List.take_eq_nil_iff.mp none with zero | rfl
    · exact begun zero
    · exact begun (Nat.le_zero.mp (tiles.within (Nat.zero_le _)))

theorem accepts_of_value (src : Bytes) (rounds : Nat)
    (h : (Root.parse rounds (TokenStream.init src)).value.isSome = true) : ∃ tree, Accepts src tree := by
  obtain ⟨tree, parsed⟩ := Option.isSome_iff_exists.mp h
  obtain ⟨s, run⟩ := Parse.ok_of_value parsed
  exact ⟨tree, rounds, s, run⟩

theorem accepts_test (src : Bytes) (rounds : Nat) {P : Root → Bool}
    (h : (Root.parse rounds (TokenStream.init src)).value.any P = true) : ∃ tree, Accepts src tree ∧ P tree = true := by
  obtain ⟨tree, parsed, passes⟩ := (Option.any_eq_true _ _).mp h
  obtain ⟨s, run⟩ := Parse.ok_of_value parsed
  exact ⟨tree, ⟨rounds, s, run⟩, passes⟩

theorem blanks_between_sample : ∃ tree tree', Accepts (bytes "x=1") tree ∧
    Accepts (bytes "x" ++ ([32, 9] ++ bytes "=1")) tree' ∧ tree'.erase = tree.erase := by
  obtain ⟨tree, accepted⟩ := accepts_of_value (bytes "x=1") 6 (by decide +kernel)
  have tiles : Tiles (bytes "x=1") 0 .init [.CreateSymbol 1 [120]] 1 ⟨1, 2⟩ := .cons rfl .nil
  obtain ⟨tree', accepted', same⟩ :=
    (blanks_between_iff accepted tiles (List.cons_ne_nil 32 [9]) (by simp)).mpr (by decide)
  exact ⟨tree, tree', accepted, accepted', same⟩

/-- A blank before `x=1`. -/
theorem leading_blank_rejected :
    (∃ tree, Accepts (bytes "x=1") tree) ∧ ¬ ∃ tree, Accepts (bytes " x=1") tree := by
  refine ⟨accepts_of_value _ 6 (by decide +kernel), ?_⟩
  rintro ⟨tree, accepted⟩
  exact accepted_word accepted (.make .Space 1) rfl rfl

end Mygo

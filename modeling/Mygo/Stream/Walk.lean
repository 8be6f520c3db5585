import Mygo.Stream
import Mygo.Lexer.Tiles

namespace Mygo

namespace TokenStream

def token (src : Bytes) (p : Nat) : Option Value := Value.FromChars (src.drop p)

def after (l : Loc) (v : Value) : Loc :=
  if v.type_ = .Enl then ⟨l.line + 1, 1⟩ else ⟨l.line, l.coloum + v.len_⟩

/-- Tokens that follow each other from one position and location to another. -/
inductive Tiles (src : Bytes) : Nat → Loc → List Value → Nat → Loc → Prop
  | nil : Tiles src p l [] p l
  | cons : token src p = some v → Tiles src (p + v.len_) (after l v) vs q m →
    Tiles src p l (v :: vs) q m

def texts (src : Bytes) : Nat → List Value → Bytes
  | _, [] => []
  | p, v :: vs => (src.drop p).take v.len_ ++ texts src (p + v.len_) vs

def Located (src : Bytes) (p : Nat) (l : Loc) : Prop := ∃ vs, Tiles src 0 .init vs p l

variable {src : Bytes} {p q : Nat} {l m : Loc} {v w : Value} {vs ws : List Value}

theorem token_end (h : src.length ≤ p) : token src p = some (.make .Enf 0) := by
  rw [token, List.drop_eq_nil_of_le h]
  rfl

theorem token_inside (inside : p < src.length) (h : token src p = some v) :
    v.type_ ≠ .Enf ∧ 1 ≤ v.len_ ∧ p + v.len_ ≤ src.length := by
  rw [token, List.drop_eq_getElem_cons inside] at h
  have covers := Lexer.fromChars_covers h
  have within := covers.within
  rw [← List.drop_eq_getElem_cons inside, List.length_drop] at within
  exact ⟨covers.inside, covers.positive, by omega⟩

theorem token_enf (h : token src p = some v) : v.type_ = .Enf ↔ src.length ≤ p := by
  constructor
  · intro enf
    by_contra inside
    exact (token_inside (Nat.lt_of_not_le inside) h).1 enf
  · intro outside
    rw [token_end outside] at h
    cases h
    rfl

theorem token_empty (h : token src p = some v) (empty : v.len_ = 0) : v = .make .Enf 0 := by
  by_cases inside : p < src.length
  · exact absurd (token_inside inside h).2.1 (by omega)
  · rw [token_end (Nat.le_of_not_lt inside)] at h
    cases h
    rfl

theorem after_empty (h : token src p = some v) (empty : v.len_ = 0) : after l v = l := by
  rw [token_empty h empty]
  rfl

namespace Tiles

theorem le (h : Tiles src p l vs q m) : p ≤ q := by
  induction h with
  | nil => exact Nat.le_refl _
  | cons _ _ ih => omega

theorem within (h : Tiles src p l vs q m) (start : p ≤ src.length) : q ≤ src.length := by
  induction h with
  | nil => exact start
  | @cons p v l vs q m first rest ih =>
    apply ih
    by_cases inside : p < src.length
    · exact (token_inside inside first).2.2
    · rw [token_end (Nat.le_of_not_lt inside)] at first
      cases first
      exact start

theorem append (h : Tiles src p l vs q m) {r : Nat} {n : Loc} (h' : Tiles src q m ws r n) :
    Tiles src p l (vs ++ ws) r n := by
  induction h with
  | nil => exact h'
  | cons first _ ih => exact .cons first (ih h')

theorem stay (h : Tiles src p l vs q m) (same : q = p) : m = l := by
  induction h with
  | nil => rfl
  | @cons p v l vs q m first rest ih =>
    have empty : v.len_ = 0 := by
      have := rest.le
      omega
    rw [ih (by omega), after_empty first empty]

theorem unique (h : Tiles src p l vs q m) {n : Loc} (h' : Tiles src p l ws q n) : m = n := by
  induction h generalizing ws with
  | nil => exact (h'.stay rfl).symm
  | cons first rest ih =>
    cases h' with
    | nil => exact (Tiles.cons first rest).stay rfl
    | cons first' rest' =>
      obtain rfl := Option.some.inj (first.symm.trans first')
      exact ih rest'

theorem covers (h : Tiles src p l vs q m) : src.take q = src.take p ++ texts src p vs := by
  induction h with
  | nil => simp [texts]
  | cons _ _ ih => rw [ih, texts, List.take_add, List.append_assoc]

end Tiles

theorem Located.unique (h : Located src p l) (h' : Located src p m) : l = m :=
  let ⟨_, tiles⟩ := h
  let ⟨_, tiles'⟩ := h'
  tiles.unique tiles'

theorem Located.within (h : Located src p l) : p ≤ src.length :=
  let ⟨_, tiles⟩ := h
  tiles.within (Nat.zero_le _)

theorem Located.next (h : Located src p l) (tiles : Tiles src p l vs q m) : Located src q m :=
  let ⟨_, before⟩ := h
  ⟨_, before.append tiles⟩

def settled (src : Bytes) (p : Nat) (l : Loc) (last v : Value) : TokenStream :=
  ⟨some (spanned l v), p, src, ⟨p, l, last⟩⟩

/-- The state of the stream is a position of its source, and so is that of the cached token. -/
structure Coherent (s : TokenStream) : Prop where
  located : Located s.src_ s.state_.pos s.state_.loc
  cached : s.cache_key_ = -1 ∨ ∃ (p : Nat) (l : Loc) (v : Value), s.cache_key_ = p ∧
    Located s.src_ p l ∧ token s.src_ p = some v ∧ s.cache_ = some (spanned l v)

theorem coherent_init (src : Bytes) : Coherent (init src) := ⟨⟨[], .nil⟩, .inl rfl⟩

theorem coherent_settled {last : Value} (h : Located src p l) (here : token src p = some v) :
    Coherent (settled src p l last v) :=
  ⟨h, .inr ⟨p, l, v, rfl, h, here, rfl⟩⟩

theorem Coherent.Load {s : TokenStream} {saved : State} (h : Coherent s)
    (located : Located s.src_ saved.pos saved.loc) : Coherent (s.Load saved) :=
  ⟨located, h.cached⟩

/-- A hit gives the token with its span, a miss without. -/
theorem Coherent.peek {s : TokenStream} (h : Coherent s) (here : token s.src_ s.state_.pos = some v) :
    s.Peek = some (some (if s.cache_key_ = s.state_.pos then spanned s.state_.loc v else v),
      settled s.src_ s.state_.pos s.state_.loc s.state_.last_tk v) := by
  obtain ⟨located, cached⟩ := h
  rw [Peek]
  split
  · next hit =>
    rcases cached with none | ⟨p, l, v', key, located', here', cache⟩
    · omega
    · obtain rfl : p = s.state_.pos := by omega
      obtain rfl := located.unique located'
      obtain rfl := Option.some.inj (here.symm.trans here')
      rw [cache, settled, ← cache, ← key]
  · next miss =>
    rw [token] at here
    rw [here]
    rfl

theorem Coherent.peek_none {s : TokenStream} (h : Coherent s)
    (stuck : token s.src_ s.state_.pos = none) : s.Peek = none := by
  rw [Peek]
  split
  · next hit =>
    rcases h.cached with none | ⟨p, l, v', key, located', here', cache⟩
    · omega
    · obtain rfl : p = s.state_.pos := by omega
      exact nomatch here'.symm.trans stuck
  · rw [token] at stuck
    rw [stuck]

theorem peek_hit {s : TokenStream} (hit : s.cache_key_ = s.state_.pos) : s.Peek = some (s.cache_, s) :=
  if_pos hit

theorem peek_moved {last : Value} (here : token src p = some v) :
    (Peek ⟨some (spanned l v), p, src, ⟨p + v.len_, after l v, last⟩⟩).map Prod.snd =
      (token src (p + v.len_)).map (settled src (p + v.len_) (after l v) last) := by
  by_cases empty : v.len_ = 0
  · rw [peek_hit (by simp [empty]), empty, Nat.add_zero, here, after_empty here empty]
    rfl
  · rw [Peek, if_neg (by simp only; omega), token]
    cases Value.FromChars (src.drop (p + v.len_)) with
    | none => rfl
    | some w => rfl

theorem skip_settled {last : Value} (here : token src p = some v) :
    (settled src p l last v).skip = (token src (p + v.len_)).map fun w =>
      (some (spanned (after l v) w), settled src (p + v.len_) (after l v) last w) := by
  have hit : ∀ l', (⟨some (spanned l v), p, src, ⟨p, l', last⟩⟩ : TokenStream).Peek =
      some (some (spanned l v), ⟨some (spanned l v), p, src, ⟨p, l', last⟩⟩) := fun l' => peek_hit rfl
  have moved : (settled src p l last v).skip =
      ((Peek ⟨some (spanned l v), p, src, ⟨p + v.len_, after l v, last⟩⟩).map Prod.snd).bind Peek := by
    simp only [skip, peeked, settled, hit, Option.bind_eq_bind, Option.bind_some]
    rw [Option.bind_map]
    rfl
  rw [moved, peek_moved here]
  cases token src (p + v.len_) with
  | none => rfl
  | some w => exact peek_hit rfl

theorem peeked_settled (src : Bytes) (p : Nat) (l : Loc) (last v : Value) :
    (settled src p l last v).peeked = some (spanned l v, settled src p l last v) := by
  rw [peeked, peek_hit rfl]
  rfl

def Spaces (vs : List Value) : Prop := ∀ v ∈ vs, v.type_ = .Space

theorem skip_spaces_settled {last : Value} {rounds : Nat} (here : token src p = some v)
    (enough : src.length - p < rounds) :
    ∃ spaces q m, Tiles src p l (v :: spaces) q m ∧ Spaces spaces ∧
      (token src q = none ∧ skip_spaces rounds (settled src p l last v) = none ∨
        ∃ w, token src q = some w ∧ w.type_ ≠ .Space ∧
          skip_spaces rounds (settled src p l last v) = some (settled src q m last w)) := by
  induction rounds generalizing p l v with
  | zero => exact absurd enough (Nat.not_lt_zero _)
  | succ rounds ih =>
    have first : Tiles src p l [v] (p + v.len_) (after l v) := .cons here .nil
    cases next : token src (p + v.len_) with
    | none =>
      refine ⟨[], _, _, first, List.forall_mem_nil _, .inl ⟨next, ?_⟩⟩
      rw [skip_spaces, skip_settled here, next]
      rfl
    | some w =>
      have looked : skip_spaces (rounds + 1) (settled src p l last v) =
          if w.type_ = .Space then skip_spaces rounds (settled src (p + v.len_) (after l v) last w)
          else some (settled src (p + v.len_) (after l v) last w) := by
        rw [skip_spaces, skip_settled here, next]
        simp only [Option.map_some, Option.bind_eq_bind, Option.bind_some, reduceCtorEq, if_false, peeked_settled]
        rfl
      by_cases space : w.type_ = .Space
      · have inside : p + v.len_ < src.length := by
          by_contra outside
          rw [token_end (Nat.le_of_not_lt outside)] at next
          cases next
          cases space
        have positive := (token_inside (by omega) here).2.1
        obtain ⟨spaces, q, m, tiles, all, ends⟩ := @ih (p + v.len_) (after l v) w next (by omega)
        refine ⟨w :: spaces, q, m, .cons here tiles, List.forall_mem_cons.mpr ⟨space, all⟩, ?_⟩
        rw [looked, if_pos space]
        exact ends
      · refine ⟨[], _, _, first, List.forall_mem_nil _, .inr ⟨w, next, space, ?_⟩⟩
        rw [looked, if_neg space]

theorem Coherent.next_loop {s : TokenStream} (h : Coherent s)
    (here : token s.src_ s.state_.pos = some v) :
    s.Next = skip_spaces (s.src_.length + 1)
      (settled s.src_ s.state_.pos s.state_.loc (spanned s.state_.loc v) v) := by
  rw [Next, h.peek here]
  simp only [Option.bind_eq_bind, Option.bind_some, reduceCtorEq, if_false, peeked_settled]
  rfl

theorem Coherent.next {s : TokenStream} (h : Coherent s) (here : token s.src_ s.state_.pos = some v) :
    ∃ spaces q m, Tiles s.src_ s.state_.pos s.state_.loc (v :: spaces) q m ∧ Spaces spaces ∧
      (token s.src_ q = none ∧ s.Next = none ∨
        ∃ w, token s.src_ q = some w ∧ w.type_ ≠ .Space ∧
          s.Next = some (settled s.src_ q m (spanned s.state_.loc v) w)) := by
  rw [h.next_loop here]
  exact skip_spaces_settled here (by omega)

theorem Coherent.next_none {s : TokenStream} (h : Coherent s)
    (stuck : token s.src_ s.state_.pos = none) : s.Next = none := by
  rw [Next, h.peek_none stuck]
  rfl

def walk (src : Bytes) : Nat → Option TokenStream
  | 0 => some (init src)
  | n + 1 => (walk src n).bind Next

/-- Where the next call of `Next` would look for a token and find none. -/
def Stuck (s : TokenStream) : Prop :=
  s.Next = none ∧ ∃ vs q m, Tiles s.src_ s.state_.pos s.state_.loc vs q m ∧ Spaces vs.tail ∧
    token s.src_ q = none

/-- `FromChars` gives tokens that cover the beginning of their ranges, and calls of `Next` go
through a source from token to token: each visited token is followed by the spaces that are
skipped behind it, and the walk ends at the end of the source or where there is no token. -/
structure Tiled (src : Bytes) : Prop where
  empty : ∀ cs, Value.FromChars cs = some (.make .Enf 0) ↔ cs = []
  covers : ∀ cs v, cs ≠ [] → Value.FromChars cs = some v → Lexer.Covers cs v
  step : ∀ n s s', walk src n = some s → s.Next = some s' →
    s.state_.pos = src.length ∧ s'.state_.pos = src.length ∨
      s.state_.pos < s'.state_.pos ∧ s'.state_.pos ≤ src.length
  tiles : ∀ n s, walk src n = some s → ∃ steps : List (Value × List Value), steps.length = n ∧
    (∀ step ∈ steps, Spaces step.2) ∧
    Tiles src 0 .init (steps.flatMap fun step => step.1 :: step.2) s.state_.pos s.state_.loc ∧
    src.take s.state_.pos = texts src 0 (steps.flatMap fun step => step.1 :: step.2)
  ends : ∃ n s, walk src n = some s ∧ n ≤ src.length ∧
    (s.state_.pos = src.length ∧ token src s.state_.pos = some (.make .Enf 0) ∨ s.Stuck)

theorem Coherent.next_cases {s s' : TokenStream} (h : Coherent s) (moved : s.Next = some s') :
    ∃ v spaces, token s.src_ s.state_.pos = some v ∧ Spaces spaces ∧ Coherent s' ∧ s'.src_ = s.src_ ∧
      Tiles s.src_ s.state_.pos s.state_.loc (v :: spaces) s'.state_.pos s'.state_.loc := by
  cases here : token s.src_ s.state_.pos with
  | none => exact nomatch moved.symm.trans (h.next_none here)
  | some v =>
    obtain ⟨spaces, q, m, tiles, all, ⟨-, stuck⟩ | ⟨w, there, -, next⟩⟩ := h.next here
    · exact nomatch moved.symm.trans stuck
    · obtain rfl := Option.some.inj (moved.symm.trans next)
      exact ⟨v, spaces, rfl, all, coherent_settled (h.located.next tiles) there, rfl, tiles⟩

theorem Coherent.next_pos {s s' : TokenStream} (h : Coherent s) (moved : s.Next = some s') :
    s.state_.pos = s.src_.length ∧ s'.state_.pos = s.src_.length ∨
      s.state_.pos < s'.state_.pos ∧ s'.state_.pos ≤ s.src_.length := by
  obtain ⟨v, spaces, here, -, coherent, src, tiles⟩ := h.next_cases moved
  have start := h.located.within
  have stop := tiles.within start
  cases tiles with
  | cons first rest =>
    have behind := rest.le
    by_cases inside : s.state_.pos < s.src_.length
    · have := (token_inside inside here).2.1
      exact .inr ⟨by omega, stop⟩
    · exact .inl ⟨by omega, by omega⟩

theorem walk_coherent {n : Nat} {s : TokenStream} (h : walk src n = some s) :
    Coherent s ∧ s.src_ = src := by
  induction n generalizing s with
  | zero =>
    cases h
    exact ⟨coherent_init src, rfl⟩
  | succ n ih =>
    obtain ⟨s', before, moved⟩ := Option.bind_eq_some_iff.mp h
    obtain ⟨coherent, rfl⟩ := ih before
    obtain ⟨v, spaces, -, -, coherent', same, -⟩ := coherent.next_cases moved
    exact ⟨coherent', same⟩

theorem walk_tiles {n : Nat} {s : TokenStream} (h : walk src n = some s) :
    ∃ steps : List (Value × List Value), steps.length = n ∧ (∀ step ∈ steps, Spaces step.2) ∧
      Tiles src 0 .init (steps.flatMap fun step => step.1 :: step.2) s.state_.pos s.state_.loc := by
  induction n generalizing s with
  | zero =>
    cases h
    exact ⟨[], rfl, nofun, .nil⟩
  | succ n ih =>
    obtain ⟨s', before, moved⟩ := Option.bind_eq_some_iff.mp h
    obtain ⟨coherent, rfl⟩ := walk_coherent before
    obtain ⟨v, spaces, -, all, -, -, tiles⟩ := coherent.next_cases moved
    obtain ⟨steps, rfl, spaced, sofar⟩ := ih before
    refine ⟨steps ++ [(v, spaces)], by simp, ?_, ?_⟩
    · exact List.forall_mem_append.mpr ⟨spaced, List.forall_mem_singleton.mpr all⟩
    · rw [List.flatMap_append]
      exact sofar.append (by simpa using tiles)

theorem walk_ends {n k : Nat} {s : TokenStream} (h : walk src n = some s)
    (left : src.length - s.state_.pos = k) (bound : n + k ≤ src.length) :
    ∃ n s, walk src n = some s ∧ n ≤ src.length ∧
      (s.state_.pos = src.length ∧ token src s.state_.pos = some (.make .Enf 0) ∨ s.Stuck) := by
  induction k using Nat.strongRecOn generalizing n s with
  | ind k ih =>
    obtain ⟨coherent, rfl⟩ := walk_coherent h
    have start := coherent.located.within
    by_cases inside : s.state_.pos < s.src_.length
    · cases moved : s.Next with
      | some s' =>
        rcases coherent.next_pos moved with last | further
        · omega
        · have again : walk s.src_ (n + 1) = some s' := Option.bind_eq_some_iff.mpr ⟨s, h, moved⟩
          exact ih (s.src_.length - s'.state_.pos) (by omega) again rfl (by omega)
      | none =>
        refine ⟨n, s, h, by omega, .inr ⟨moved, ?_⟩⟩
        cases here : token s.src_ s.state_.pos with
        | none => exact ⟨[], _, _, .nil, nofun, here⟩
        | some v =>
          obtain ⟨spaces, q, m, tiles, all, ⟨stuck, -⟩ | ⟨w, -, -, next⟩⟩ := coherent.next here
          · exact ⟨v :: spaces, q, m, tiles, all, stuck⟩
          · exact nomatch moved.symm.trans next
    · exact ⟨n, s, h, by omega, .inl ⟨by omega, token_end (Nat.le_of_not_lt inside)⟩⟩

theorem tokens_tile (src : Bytes) : Tiled src where
  empty cs := by
    constructor
    · intro h
      cases cs with
      | nil => rfl
      | cons c cs => exact absurd rfl (Lexer.fromChars_covers h).inside
    · rintro rfl
      rfl
  covers cs v more h := by
    cases cs with
    | nil => exact absurd rfl more
    | cons c cs => exact Lexer.fromChars_covers h
  step n s s' h moved := by
    obtain ⟨coherent, rfl⟩ := walk_coherent h
    exact coherent.next_pos moved
  tiles n s h := by
    obtain ⟨steps, count, spaced, tiles⟩ := walk_tiles h
    exact ⟨steps, count, spaced, tiles, tiles.covers⟩
  ends := walk_ends (n := 0) rfl rfl (by simp [init])

end TokenStream

end Mygo

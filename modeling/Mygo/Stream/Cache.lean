import Mygo.Lib.Trace
import Mygo.Parser.Defs
import Mygo.Stream.Walk

/-! The tokens that a stream gives out in any order of calls, with its one cached token, compared
with those of the source. -/

namespace Mygo

namespace TokenStream

/-- The calls of the parse functions on a stream, and `Expr::parse_token`, which stores a token
in the tree. -/
inductive Call
  | Peek
  | Next
  | state
  | Load (i : Nat)
  | parse_token

structure Session where
  stream : TokenStream
  states : List State
  tokens : List (State × Option Value)

namespace Session

def init (src : Bytes) : Session := ⟨.init src, [], []⟩

def give (c : Session) (v : Option Value) (s : TokenStream) : Session :=
  { c with stream := s, tokens := c.tokens ++ [(c.stream.state_, v)] }

/-- `none` is the access to a disengaged optional, or a state that was not obtained. -/
def step (c : Session) : Call → Option Session
  | .Peek => c.stream.Peek.map fun (v, s) => c.give v s
  | .Next => c.stream.Next.map fun s => { c with stream := s }
  | .state => some { c with states := c.states ++ [c.stream.state_] }
  | .Load i => c.states[i]?.map fun saved => { c with stream := c.stream.Load saved }
  | .parse_token =>
    match Expr.parse_token c.stream with
    | .ok (.TOKEN _ _ v) s => some (c.give (some v) s)
    | .err _ s => some { c with stream := s }
    | _ => none

/-- Every token is that of the source at its position, and its span is where it stands. -/
def Transparent (c : Session) : Prop :=
  ∀ given ∈ c.tokens, Located c.stream.src_ given.1.pos given.1.loc ∧
    ∃ v, token c.stream.src_ given.1.pos = some v ∧ given.2 = some (spanned given.1.loc v)

def Asks (c : Session) : Call → Prop
  | .Peek => True
  | .parse_token =>
    ∃ v, token c.stream.src_ c.stream.state_.pos = some v ∧ Expr.is_atomic v.type_ = true
  | _ => False

/-- A token is only asked for at the position of the cached one. -/
def Keeps (c : Session) (call : Call) : Prop :=
  c.Asks call → c.stream.cache_key_ = c.stream.state_.pos ∨ c.stream.src_ = []

end Session

end TokenStream

namespace TokenStream

variable {src : Bytes} {p q : Nat} {l m : Loc} {v : Value} {vs : List Value}

theorem Tiles.later (h : Tiles src p l vs q m) :
    q = p ∨ l.line < m.line ∨ l.line = m.line ∧ l.coloum < m.coloum := by
  induction h with
  | nil => exact .inl rfl
  | @cons p v l vs q m first rest ih =>
    by_cases empty : v.len_ = 0
    · rwa [empty, after_empty first empty] at ih
    · right
      have behind : l.line < (after l v).line ∨
          l.line = (after l v).line ∧ l.coloum < (after l v).coloum := by
        unfold after
        split
        · exact .inl (Nat.lt_succ_self _)
        · exact .inr ⟨rfl, Nat.lt_add_of_pos_right (Nat.pos_of_ne_zero empty)⟩
      rcases ih with same | further | ⟨line, further⟩
      · rwa [rest.stay same]
      · omega
      · omega

theorem Located.init (h : Located src p .init) : p = 0 := by
  obtain ⟨vs, tiles⟩ := h
  rcases tiles.later with same | further | ⟨-, further⟩
  · exact same
  · exact absurd further (Nat.lt_irrefl _)
  · exact absurd further (Nat.lt_irrefl _)

theorem spanned_bare (h : Located src p l) (here : token src p = some v) :
    spanned l v = v ↔ src = [] := by
  have bare := Lexer.fromChars_bare here
  constructor
  · intro same
    obtain rfl : l = .init := (congrArg Value.start same).trans bare.1
    obtain rfl := h.init
    cases src with
    | nil => rfl
    | cons c cs =>
      have behind := (Tiles.cons (l := .init) here .nil).later
      have same_end : after .init v = .init := (congrArg Value.end_ same).trans bare.2
      rw [same_end] at behind
      have positive := (token_inside (Nat.zero_lt_succ _) here).2.1
      rcases behind with same | further | ⟨-, further⟩
      · omega
      · exact absurd further (Nat.lt_irrefl _)
      · exact absurd further (Nat.lt_irrefl _)
  · rintro rfl
    obtain rfl : p = 0 := Nat.le_zero.mp h.within
    cases here
    obtain rfl : l = .init := (h.unique ⟨[], .nil⟩)
    rfl

def found (s : TokenStream) (v : Value) : Value :=
  if s.cache_key_ = s.state_.pos then spanned s.state_.loc v else v

theorem found_type (s : TokenStream) (v : Value) : (s.found v).type_ = v.type_ := by
  unfold found
  split
  · rfl
  · rfl

open Parser in
theorem Coherent.parse_token_atomic {s : TokenStream} (h : Coherent s)
    (here : token s.src_ s.state_.pos = some v) (atomic : Expr.is_atomic v.type_ = true) :
    Expr.parse_token s = match s.Next with
      | some t => .ok (.TOKEN s.state_.loc t.state_.loc (s.found v)) t
      | none => .abort := by
  have same : (settled s.src_ s.state_.pos s.state_.loc s.state_.last_tk v).Next = s.Next := by
    rw [h.next_loop here]
    exact (coherent_settled h.located here).next_loop here
  have peeks : (Mygo.peek : Parsing TokenStream (Option Value)) s = Parse.ok (some (s.found v))
      (settled s.src_ s.state_.pos s.state_.loc s.state_.last_tk v) := by
    simp only [Mygo.peek, Stream.Peek, h.peek here, found]
  rw [Expr.parse_token, guard, guarded, bind_ok peeks]
  simp only [found_type, atomic, if_true, run_bind, Mygo.next, Stream.Next, same]
  cases s.Next with
  | none => rfl
  | some t => rfl

open Parser in
theorem Coherent.parse_token_other {s : TokenStream} (h : Coherent s)
    (here : token s.src_ s.state_.pos = some v) (other : Expr.is_atomic v.type_ = false) :
    Expr.parse_token s = .err (.make s.state_.loc "parse tk error")
      (settled s.src_ s.state_.pos s.state_.loc s.state_.last_tk v) := by
  have peeks : (Mygo.peek : Parsing TokenStream (Option Value)) s = Parse.ok (some (s.found v))
      (settled s.src_ s.state_.pos s.state_.loc s.state_.last_tk v) := by
    simp only [Mygo.peek, Stream.Peek, h.peek here, found]
  rw [Expr.parse_token, guard, guarded, bind_ok peeks]
  simp only [found_type, other]
  rfl

theorem found_spanned {s : TokenStream} (h : Located s.src_ s.state_.pos s.state_.loc)
    (here : token s.src_ s.state_.pos = some v) :
    s.found v = spanned s.state_.loc v ↔ s.cache_key_ = s.state_.pos ∨ s.src_ = [] := by
  rw [← spanned_bare h here, found]
  by_cases hit : s.cache_key_ = s.state_.pos
  · simp [hit]
  · rw [if_neg hit, or_iff_right hit]
    exact eq_comm

namespace Session

structure Sound (src : Bytes) (c : Session) : Prop where
  stream : Coherent c.stream
  source : c.stream.src_ = src
  states : ∀ saved ∈ c.states, Located src saved.pos saved.loc

def Gives (c : Session) (call : Call) (c' : Session) : Prop :=
  (¬ c.Asks call ∧ c'.tokens = c.tokens) ∨ c.Asks call ∧
    ∃ v, token c.stream.src_ c.stream.state_.pos = some v ∧
      c'.tokens = c.tokens ++ [(c.stream.state_, some (c.stream.found v))]

variable {c c' : Session} {call : Call}

theorem Sound.step (h : Sound src c) (he : c.step call = some c') : Sound src c' ∧ c.Gives call c' := by
  obtain ⟨coherent, rfl, states⟩ := h
  have located := coherent.located
  cases call with
  | Peek =>
    cases here : token c.stream.src_ c.stream.state_.pos with
    | none =>
      rw [Session.step, coherent.peek_none here] at he
      cases he
    | some v =>
      rw [Session.step, coherent.peek here] at he
      cases he
      exact ⟨⟨coherent_settled located here, rfl, states⟩, .inr ⟨trivial, v, here, rfl⟩⟩
  | Next =>
    obtain ⟨s, moved, rfl⟩ := Option.map_eq_some_iff.mp he
    obtain ⟨-, -, -, -, coherent', same, -⟩ := coherent.next_cases moved
    exact ⟨⟨coherent', same, states⟩, .inl ⟨id, rfl⟩⟩
  | state =>
    cases he
    refine ⟨⟨coherent, rfl, ?_⟩, .inl ⟨id, rfl⟩⟩
    exact List.forall_mem_append.mpr ⟨states, List.forall_mem_singleton.mpr located⟩
  | Load i =>
    obtain ⟨saved, obtained, rfl⟩ := Option.map_eq_some_iff.mp he
    have located' := states saved (List.mem_of_getElem? obtained)
    exact ⟨⟨coherent.Load located', rfl, states⟩, .inl ⟨id, rfl⟩⟩
  | parse_token =>
    cases here : token c.stream.src_ c.stream.state_.pos with
    | none =>
      have stuck : Expr.parse_token c.stream = .abort := by
        rw [Expr.parse_token, guard, Parser.guarded, Parser.bind_abort]
        simp only [Mygo.peek, Stream.Peek, coherent.peek_none here]
      rw [Session.step, stuck] at he
      cases he
    | some v =>
      cases atomic : Expr.is_atomic v.type_ with
      | true =>
        rw [Session.step, coherent.parse_token_atomic here atomic] at he
        cases moved : c.stream.Next with
        | none =>
          rw [moved] at he
          cases he
        | some t =>
          rw [moved] at he
          cases he
          obtain ⟨-, -, -, -, coherent', same, -⟩ := coherent.next_cases moved
          exact ⟨⟨coherent', same, states⟩, .inr ⟨⟨v, here, atomic⟩, v, here, rfl⟩⟩
      | false =>
        rw [Session.step, coherent.parse_token_other here atomic] at he
        cases he
        refine ⟨⟨coherent_settled located here, rfl, states⟩, .inl ⟨?_, rfl⟩⟩
        rintro ⟨v', here', atomic'⟩
        obtain rfl := Option.some.inj (here.symm.trans here')
        cases atomic.symm.trans atomic'

theorem Sound.follow {calls : List Call} (h : Trace.follow Session.step (init src) calls = some c) :
    Sound src c := by
  refine Trace.follow_induction (P := fun _ c => Sound src c) ?_ ?_ h
  · exact ⟨coherent_init src, rfl, nofun⟩
  · exact fun _ c call c' _ sound he => (sound.step he).1

theorem Sound.transparent (h : Sound src c) (he : c.step call = some c') :
    c'.Transparent ↔ c.Transparent ∧ c.Keeps call := by
  obtain ⟨sound', gives⟩ := h.step he
  have source : c'.stream.src_ = c.stream.src_ := sound'.source.trans h.source.symm
  rw [Transparent, source]
  rcases gives with ⟨silent, same⟩ | ⟨asks, v, here, given⟩
  · rw [same]
    exact ⟨fun before => ⟨before, fun asks => absurd asks silent⟩, And.left⟩
  · rw [given, List.forall_mem_append, List.forall_mem_singleton]
    refine and_congr_right fun _ => ?_
    have located := h.stream.located
    constructor
    · rintro ⟨-, v', here', span⟩ -
      obtain rfl := Option.some.inj (here.symm.trans here')
      exact (found_spanned located here).mp (Option.some.inj span)
    · intro keeps
      exact ⟨located, v, here, congrArg some ((found_spanned located here).mpr (keeps asks))⟩

/-- The tokens given out in a run are right, with their spans, exactly when each of them is asked
for at the position of the cached one. -/
theorem transparent_iff_keeps (src : Bytes) (calls : List Call) :
    (∀ pre c, pre <+: calls → Trace.follow step (init src) pre = some c → c.Transparent) ↔
      ∀ pre call c c', pre ++ [call] <+: calls → Trace.follow step (init src) pre = some c →
        c.step call = some c' → c.Keeps call := by
  constructor
  · intro transparent pre call c c' inside reached he
    have after := transparent _ c' inside (Trace.follow_snoc.mpr ⟨c, reached, he⟩)
    exact ((Sound.follow reached).transparent he |>.mp after).2
  · intro keeps pre c inside reached
    refine Trace.follow_induction (P := fun pre c => pre <+: calls → c.Transparent) ?_ ?_ reached inside
    · exact fun _ _ none => nomatch none
    · intro pre c call c' reached ih he inside
      have before := ih ((List.prefix_append _ _).trans inside)
      exact (Sound.follow reached).transparent he |>.mpr ⟨before, keeps pre call c c' inside reached he⟩

/-- The first call at a position returns the token without its span and the second one with it;
the tree of a call holds such a token. -/
theorem first_peek_bare :
    (∃ c, Trace.follow step (init (bytes "1")) [.Peek, .Peek] = some c ∧
      c.tokens.map (fun given => given.2.map Value.end_) = [some ⟨1, 1⟩, some ⟨1, 2⟩] ∧
      ¬ c.Transparent) ∧
    ((Root.parse 9 (TokenStream.init (bytes "f()"))).value.bind fun root =>
      match root.nodes with
      | [.Expr (.FUNCALL _ _ [.TOKEN start end_ v])] => some ((start, end_), (v.start, v.end_))
      | _ => none) = some ((⟨1, 1⟩, ⟨1, 2⟩), (⟨1, 1⟩, ⟨1, 1⟩)) := by
  refine ⟨⟨_, rfl, by decide +kernel, ?_⟩, by decide +kernel⟩
  intro transparent
  obtain ⟨-, v, here, given⟩ := transparent _ (List.mem_cons_self ..)
  cases here
  exact absurd given (by decide)

end Session

end TokenStream

end Mygo

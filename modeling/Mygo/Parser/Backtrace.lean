import Mygo.Lib.Forward
import Mygo.Parser.Fatal
import Mygo.Parser.Spans

namespace Mygo

open Parser TokenStream

/-- Every entry of the stack is at a boundary of tokens, none before position `n` and none behind the entry
before it. -/
structure Backtrace (src : Bytes) (n : Nat) (e : Err) : Prop where
  some_ : e.err_stack_ ≠ []
  located : ∀ item ∈ e.err_stack_, ∃ p, n ≤ p ∧ Located src p item.1
  outward : e.err_stack_.Pairwise fun inner outer => outer.1 ≤ inner.1

namespace Backtrace

variable {src : Bytes} {m n : Nat} {l : Loc} {e : Err}

theorem earlier (le : m ≤ n) (h : Backtrace src n e) : Backtrace src m e where
  some_ := h.some_
  located item member := by
    obtain ⟨p, further, located⟩ := h.located item member
    exact ⟨p, le.trans further, located⟩
  outward := h.outward

theorem single (here : Located src n l) (msg : String) (is_fatal_ : Bool) :
    Backtrace src n ⟨[(l, msg)], is_fatal_⟩ where
  some_ := nofun
  located item member := by
    cases List.mem_singleton.mp member
    exact ⟨n, Nat.le_refl n, here⟩
  outward := List.pairwise_singleton _ _

theorem Append (h : Backtrace src n e) (here : Located src n l) (msg : String) :
    Backtrace src n (e.Append l msg) where
  some_ := List.append_ne_nil_of_right_ne_nil _ nofun
  located item member := by
    rcases List.mem_append.mp member with old | new
    · exact h.located item old
    · cases List.mem_singleton.mp new
      exact ⟨n, Nat.le_refl n, here⟩
  outward := by
    refine List.pairwise_append.mpr ⟨h.outward, List.pairwise_singleton _ _, fun item old outer new => ?_⟩
    cases List.mem_singleton.mp new
    obtain ⟨p, further, located⟩ := h.located item old
    exact loc_le here located further

theorem setFatal (h : Backtrace src n e) : Backtrace src n e.setFatal := ⟨h.some_, h.located, h.outward⟩

end Backtrace

def track (src : Bytes) : Track TokenStream Err where
  valid s := Coherent s ∧ s.src_ = src
  pos s := s.state_.pos
  known := Backtrace src
  earlier := Backtrace.earlier

variable {src : Bytes} {α : Type} {T : TokenType} {rounds : Nat}

section Macros

theorem peek_coherent {s : TokenStream} (coherent : Coherent s) :
    (peek s : Parse TokenStream Err (Option Value)).Meets
      (fun v t => v ≠ none ∧ Coherent t ∧ t.src_ = s.src_ ∧ t.state_.pos = s.state_.pos ∧ t.state_.loc = s.state_.loc)
      (fun _ _ => False) True True := by
  rw [peek]
  cases look : Stream.Peek s with
  | none => trivial
  | some r =>
    cases here : token s.src_ s.state_.pos with
    | none => cases look.symm.trans (coherent.peek_none here)
    | some w =>
      cases look.symm.trans (coherent.peek here)
      exact ⟨by simp, coherent_settled coherent.located here, rfl, rfl, rfl⟩

theorem forward_peek : (track src).Forward peek := by
  rintro s ⟨coherent, rfl⟩
  refine Parse.Meets.mono (peek_coherent coherent) ?_ (fun _ _ => False.elim) id id
  rintro v t ⟨-, coherent', source, pos, -⟩
  exact ⟨⟨coherent', source⟩, pos.ge⟩

theorem forward_peeked : (track src).Forward peeked := by
  refine forward_peek.bind fun v => ?_
  cases v with
  | none => exact .crash
  | some w => exact .pure w

theorem forward_peek_type : (track src).Forward peek_type := forward_peeked.bind fun v => .pure v.type_

theorem forward_next : (track src).Forward next := by
  rintro s ⟨coherent, rfl⟩
  rw [next]
  cases move : Stream.Next s with
  | none => trivial
  | some t =>
    obtain ⟨v, spaces, -, -, coherent', same, tiles⟩ := coherent.next_cases move
    exact ⟨⟨coherent', same⟩, tiles.le⟩

theorem forward_is_token : (track src).Forward (is_token T) := by
  refine forward_peek.bind fun v => ?_
  cases v with
  | none => exact .pure false
  | some w => exact forward_peeked.bind fun v => .pure _

theorem forward_skip_token : (track src).Forward (skip_token T rounds) := by
  induction rounds with
  | zero => exact .spent
  | succ rounds ih =>
    refine forward_is_token.bind fun b => ?_
    split
    · exact forward_next.bind fun _ => ih
    · exact .pure ()

theorem forward_skip_token_once : (track src).Forward (skip_token_once T) := by
  refine forward_is_token.bind fun b => ?_
  split
  · exact forward_next
  · exact .pure ()

theorem forward_located (g : Loc → α) : (track src).Forward (do let l ← loc; pure (g l)) :=
  Track.Forward.bind (.read _) fun l => .pure (g l)

theorem forward_fail (msg : String) : (track src).Forward (fail msg : Parsing TokenStream α) := by
  rintro s ⟨coherent, rfl⟩
  exact ⟨⟨coherent, rfl⟩, .single coherent.located msg false⟩

theorem forward_fatal (msg : String) : (track src).Forward (fatal msg : Parsing TokenStream α) := by
  rintro s ⟨coherent, rfl⟩
  exact ⟨⟨coherent, rfl⟩, .single coherent.located msg true⟩

theorem from_append (e : Err) (msg : String) (s : TokenStream) (valid : (track src).valid s)
    (known : (track src).known ((track src).pos s) e) :
    (track src).From s (append e msg s : Parse TokenStream Err α) := by
  obtain ⟨coherent, rfl⟩ := valid
  exact ⟨⟨coherent, rfl⟩, Backtrace.Append known coherent.located msg⟩

theorem returns_guard {p : Loc → Parsing TokenStream α} (h : ∀ start, (track src).Forward (p start)) :
    (track src).Returns (guard p) := by
  refine Track.Returns.guarded (fun s => h (Stream.loc s) s) ?_
  rintro s t ⟨coherent, rfl⟩ ⟨coherent', same⟩
  exact ⟨⟨coherent'.Load (same ▸ coherent.located), same⟩, rfl⟩

theorem forward_expect_with {error : String → Parsing TokenStream Value} {null other : String}
    (h : ∀ msg, (track src).Forward (error msg)) : (track src).Forward (expect_with error null other T) := by
  refine forward_peek.bind fun v => ?_
  cases v with
  | none => exact h null
  | some w =>
    refine forward_peeked.bind fun v => ?_
    split
    · exact forward_next.bind fun _ => .pure v
    · exact h other

theorem forward_expect_token : (track src).Forward (expect_token T) := forward_expect_with forward_fail

theorem forward_expect_token_fatal : (track src).Forward (expect_token_fatal T) := forward_expect_with forward_fatal

theorem forward_expect_token_err (err : String) : (track src).Forward (expect_token_err T err) :=
  forward_expect_with forward_fail

end Macros

section Expressions

open Mygo.Expr

variable {expr : Parsing TokenStream Expr}

theorem returns_parse_token : (track src).Returns parse_token := by
  refine returns_guard fun start => ?_
  refine forward_peek.bind fun v => ?_
  cases v with
  | none => exact forward_fail _
  | some w =>
    simp only
    split
    · exact forward_next.bind fun _ => forward_located _
    · exact forward_fail _

theorem forward_parse_args (h : (track src).Returns expr) : (track src).Forward (parse_args expr rounds) := by
  induction rounds with
  | zero => exact .spent
  | succ rounds ih =>
    refine h.attempt_drop ?_
    rintro (_ | e)
    · exact .pure []
    · refine forward_is_token.bind fun b => ?_
      split
      · refine forward_next.bind fun _ => ?_
        exact ih.bind fun es => .pure (e :: es)
      · exact .pure [e]

theorem returns_parse_funcall (h : (track src).Returns expr) : (track src).Returns (parse_funcall expr rounds) := by
  refine returns_guard fun start => ?_
  refine returns_parse_token.attempt_drop ?_
  rintro (_ | f)
  · exact forward_fail _
  · refine forward_expect_token.bind fun _ => ?_
    refine (forward_parse_args h).bind fun args => ?_
    exact forward_expect_token.bind fun _ => forward_located _

theorem forward_parse_operand (start : Loc) (b : Bool) : (track src).Forward (parse_operand start b) := by
  refine returns_parse_token.attempt_drop ?_
  rintro (_ | e)
  · exact forward_fail _
  · exact forward_located _

theorem returns_parse_atomic (h : (track src).Returns expr) : (track src).Returns (parse_atomic expr rounds) := by
  refine returns_guard fun start => ?_
  refine (returns_parse_funcall h).attempt_drop ?_
  rintro (_ | fc)
  · refine forward_peek_type.bind fun t => ?_
    split
    · exact forward_next.bind fun _ => forward_parse_operand start true
    · exact forward_parse_operand start false
  · exact forward_located _

theorem forward_parse_operators {is_op : TokenType → Bool} {msg : String} (h : (track src).Returns expr) :
    (track src).Forward (parse_operators is_op expr msg rounds) := by
  induction rounds with
  | zero => exact .spent
  | succ rounds ih =>
    refine forward_peek_type.bind fun t => ?_
    split
    · refine forward_next.bind fun _ => ?_
      refine h.attempt_drop ?_
      rintro (_ | e)
      · exact forward_fail _
      · exact ih.bind fun _ => .pure _
    · exact .pure ([], [])

theorem returns_parse_chain {is_op : TokenType → Bool} {first_msg msg : String} (h : (track src).Returns expr) :
    (track src).Returns (parse_chain is_op expr first_msg msg rounds) := by
  refine returns_guard fun start => ?_
  refine h.attempt_drop ?_
  rintro (_ | expr0)
  · exact forward_fail _
  · refine forward_peek_type.bind fun t => ?_
    split
    · exact (forward_parse_operators h).bind fun _ => forward_located _
    · exact forward_located _

theorem returns_parse_with_plus (h : (track src).Returns expr) :
    (track src).Returns (parse_with_plus expr rounds) :=
  returns_parse_chain (returns_parse_chain (returns_parse_atomic h))

theorem returns_parse_with_greater (h : (track src).Returns expr) :
    (track src).Returns (parse_with_greater expr rounds) := by
  refine returns_guard fun start => ?_
  refine (returns_parse_with_plus h).attempt_drop ?_
  rintro (_ | expr0)
  · exact forward_fail _
  · refine forward_peek_type.bind fun t => ?_
    split
    · refine forward_next.bind fun _ => ?_
      refine (returns_parse_with_plus h).attempt_drop ?_
      rintro (_ | expr1)
      · exact forward_fail _
      · exact forward_located _
    · exact forward_located _

theorem returns_expr : (track src).Returns (Expr.parse rounds) := by
  induction rounds with
  | zero => exact .spent
  | succ rounds ih => exact returns_parse_with_greater ih

end Expressions

section Statements

theorem forward_fields (left : Nat) : (track src).Forward (Struct.parse_fields rounds left) := by
  induction left with
  | zero => exact .crash
  | succ left ih =>
    refine forward_peeked.bind fun first => ?_
    split
    · refine forward_next.bind fun _ => ?_
      refine forward_peeked.bind fun second => ?_
      split
      · refine forward_next.bind fun _ => ?_
        refine forward_expect_token.bind fun _ => ?_
        refine forward_skip_token.bind fun _ => ?_
        exact ih.bind fun _ => .pure _
      · exact forward_fail _
    · exact .pure []

theorem returns_struct : (track src).Returns (Struct.parse rounds) := by
  refine returns_guard fun start => ?_
  refine forward_expect_token.bind fun _ => ?_
  refine forward_expect_token.bind fun _ => ?_
  refine forward_skip_token.bind fun _ => ?_
  refine (forward_fields _).bind fun fields => ?_
  exact forward_expect_token.bind fun _ => forward_located _

theorem forward_var_type : (track src).Forward (VarType.parse rounds) := by
  rintro s ⟨coherent, rfl⟩
  change (track s.src_).From s ((attempt (Struct.parse rounds) >>= _) s)
  refine meets_bind (meets_attempt (returns_struct s ⟨coherent, rfl⟩)) ?_
  rintro (_ | stct) t post
  · obtain ⟨valid, same, -⟩ := post
    refine Track.From.later (t := t) ?_ same.ge
    refine meets_bind (forward_is_token (T := .Symbol) t valid) fun b u ⟨valid', further⟩ => ?_
    split
    · refine Track.From.later (t := u) ?_ further
      have name : (track s.src_).Forward (do
          let name ← peeked
          next
          let end_ ← loc
          pure ⟨Stream.loc s, end_, false, none, name.str_data_⟩ : Parsing TokenStream VarType) := by
        refine forward_peeked.bind fun name => ?_
        exact forward_next.bind fun _ => forward_located _
      exact name u valid'
    · obtain ⟨coherent', source⟩ := valid'
      exact ⟨⟨coherent'.Load (source ▸ coherent.located), source⟩, same.le⟩
  · obtain ⟨valid, le⟩ := post
    exact Track.From.later (forward_located _ t valid) le

theorem returns_var_type : (track src).Returns (VarType.parse rounds) := fun s valid =>
  Parse.Meets.mono ((forward_var_type s valid).and (sure_var_type rounds s)) (fun _ _ => And.left)
    (fun _ _ both => both.2.elim) id id

theorem returns_declaration : (track src).Returns (Declaration.parse rounds) := by
  refine returns_guard fun start => ?_
  refine forward_expect_token.bind fun _ => ?_
  refine forward_expect_token_fatal.bind fun v => ?_
  refine returns_var_type.attempt_drop fun var_type => ?_
  refine forward_expect_token.bind fun _ => ?_
  refine returns_expr.attempt_bind (fun expr => forward_located _) ?_
  exact fun e => from_append e _

theorem returns_assignment : (track src).Returns (Assignment.parse rounds) := by
  refine returns_guard fun start => ?_
  refine forward_expect_token.bind fun v => ?_
  refine forward_expect_token.bind fun _ => ?_
  refine returns_expr.attempt_bind (fun expr => forward_located _) ?_
  exact fun e => from_append e _

theorem forward_return_exprs (left : Nat) : (track src).Forward (Return.parse_exprs rounds left) := by
  induction left with
  | zero => exact .crash
  | succ left ih =>
    refine returns_expr.attempt_drop ?_
    rintro (_ | e)
    · exact .pure []
    · exact ih.bind fun es => .pure (e :: es)

theorem returns_return : (track src).Returns (Return.parse rounds) := by
  refine returns_guard fun start => ?_
  refine forward_expect_token.bind fun _ => ?_
  exact (forward_return_exprs _).bind fun ret_exprs => forward_located _

theorem returns_typedef : (track src).Returns (Typedef.parse rounds) := by
  refine returns_guard fun start => ?_
  refine forward_expect_token.bind fun _ => ?_
  refine returns_var_type.attempt_bind (fun old_type => ?_) fun e s valid known => ?_
  · refine forward_peeked.bind fun name => ?_
    split
    · exact forward_next.bind fun _ => forward_located _
    · exact forward_fatal _
  · obtain ⟨coherent, rfl⟩ := valid
    exact ⟨⟨coherent, rfl⟩, (Backtrace.Append known coherent.located _).setFatal⟩

theorem forward_function_args (left : Nat) : (track src).Forward (Function.parse_args left) := by
  induction left with
  | zero => exact .pure []
  | succ left ih =>
    refine forward_peek_type.bind fun t => ?_
    split
    · refine forward_expect_token_fatal.bind fun val_name => ?_
      refine forward_expect_token_fatal.bind fun val_t => ?_
      refine forward_skip_token_once.bind fun _ => ?_
      exact ih.bind fun args => .pure _
    · exact .pure []

theorem forward_function_returns (left : Nat) : (track src).Forward (Function.parse_returns left) := by
  induction left with
  | zero => exact .crash
  | succ left ih =>
    refine forward_is_token.bind fun b => ?_
    split
    · refine forward_peeked.bind fun t => ?_
      refine forward_next.bind fun _ => ?_
      exact ih.bind fun returns => .pure _
    · exact .pure []

end Statements

section Blocks

variable {block : Parsing TokenStream Block}

theorem returns_function (h : (track src).Returns block) : (track src).Returns (Function.parse block rounds) := by
  refine returns_guard fun start => ?_
  refine forward_expect_token.bind fun _ => ?_
  refine forward_peeked.bind fun func_name => ?_
  refine forward_next.bind fun _ => ?_
  refine forward_expect_token_fatal.bind fun _ => ?_
  refine (forward_function_args _).bind fun args => ?_
  refine forward_expect_token_fatal.bind fun _ => ?_
  refine (forward_function_returns _).bind fun returns => ?_
  refine (forward_expect_token_err _).bind fun _ => ?_
  refine forward_skip_token.bind fun _ => ?_
  refine h.attempt_bind (fun block => ?_) fun e => from_append e _
  exact forward_expect_token.bind fun _ => forward_located _

theorem forward_braced (h : (track src).Returns block) (msg : String) :
    (track src).Forward (parse_braced block msg rounds) := by
  refine forward_expect_token.bind fun _ => ?_
  refine forward_skip_token.bind fun _ => ?_
  refine h.attempt_bind (fun block => ?_) fun e s => from_append e _ s
  exact forward_expect_token.bind fun _ => .pure block

theorem forward_branches (h : (track src).Returns block) (left : Nat) :
    (track src).Forward (If.parse_branches block rounds left) := by
  induction left with
  | zero => exact .crash
  | succ left ih =>
    refine returns_expr.attempt_drop ?_
    rintro (_ | cond)
    · exact forward_fail _
    · refine (forward_braced h _).bind fun body => ?_
      refine forward_is_token.bind fun b => ?_
      split
      · refine forward_next.bind fun _ => ?_
        split
        · exact .crash
        · refine forward_is_token.bind fun b => ?_
          split
          · refine forward_next.bind fun _ => ?_
            exact ih.bind fun _ => .pure _
          · exact (forward_braced h _).bind fun tail => .pure _
      · exact .pure _

theorem returns_if (h : (track src).Returns block) : (track src).Returns (If.parse block rounds) := by
  refine returns_guard fun start => ?_
  refine forward_expect_token.bind fun _ => ?_
  exact (forward_branches h _).bind fun _ => forward_located _

theorem returns_for (h : (track src).Returns block) : (track src).Returns (For.parse block rounds) := by
  refine returns_guard fun start => ?_
  refine forward_expect_token.bind fun _ => ?_
  refine returns_declaration.attempt_drop fun decl => ?_
  refine forward_expect_token.bind fun _ => ?_
  refine returns_expr.attempt_drop fun expr => ?_
  refine forward_expect_token.bind fun _ => ?_
  refine returns_assignment.attempt_drop fun asgn => ?_
  exact (forward_braced h _).bind fun body => forward_located _

theorem forward_first_of {fs : List (Parsing TokenStream Node)} (h : ∀ f ∈ fs, (track src).Returns f) :
    (track src).Forward (Block.first_of fs) := by
  induction fs with
  | nil => exact .pure none
  | cons f fs ih =>
    obtain ⟨first, rest⟩ := List.forall_mem_cons.mp h
    refine first.attempt_bind (fun node => .pure (some node)) fun e s valid known => ?_
    simp only
    split
    · exact ⟨valid, known⟩
    · exact ih rest s valid

theorem returns_funcs (h : (track src).Returns block) :
    ∀ f ∈ Block.parse_funcs block rounds, (track src).Returns f := by
  simp only [Block.parse_funcs, List.forall_mem_cons]
  exact ⟨returns_declaration.map, returns_assignment.map, returns_expr.map, returns_if h, returns_function h,
    returns_return.map, returns_for h, returns_typedef.map, List.forall_mem_nil _⟩

theorem forward_nodes (h : (track src).Returns block) (left : Nat) :
    (track src).Forward (Block.parse_nodes block rounds left) := by
  induction left with
  | zero => exact .crash
  | succ left ih =>
    refine forward_skip_token.bind fun _ => ?_
    refine (forward_first_of (returns_funcs h)).bind fun node => ?_
    cases node with
    | none => exact .pure []
    | some node => exact ih.bind fun nodes => .pure (node :: nodes)

theorem returns_block : (track src).Returns (Block.parse rounds) := by
  induction rounds with
  | zero => exact .spent
  | succ rounds ih =>
    refine returns_guard fun start => ?_
    exact (forward_nodes ih _).bind fun nodes => forward_located _

end Blocks

section Root

theorem Block.raises_fatal : Raises (fun e => e.is_fatal_ = true) (Block.parse rounds : Parsing TokenStream Block) := by
  have first_of (fs : List (Parsing TokenStream Node)) : Raises (fun e => e.is_fatal_ = true) (Block.first_of fs) := by
    induction fs with
    | nil => exact raises_pure none
    | cons f fs ih =>
      refine (raises_attempt f).bind fun r => ?_
      cases r with
      | ok node => exact raises_pure (some node)
      | error e =>
        simp only
        split
        · next fatal => exact raises_raise fatal
        · exact ih
  have nodes (block : Parsing TokenStream Block) (rounds left : Nat) :
      Raises (fun e => e.is_fatal_ = true) (Block.parse_nodes block rounds left) := by
    induction left with
    | zero => exact sure_crash.raises
    | succ left ih =>
      refine (sure_skip_token .Enl rounds).raises.bind fun _ => ?_
      refine (first_of _).bind fun node => ?_
      cases node with
      | none => exact raises_pure []
      | some node => exact ih.bind fun nodes => raises_pure (node :: nodes)
  cases rounds with
  | zero => exact raises_spent
  | succ rounds =>
    refine Raises.guarded fun s => ?_
    exact (nodes _ _ _).bind (fun nodes => (sure_located _).raises) s

theorem expect_enf_meets {s : TokenStream} (coherent : Coherent s) :
    (expect_token .Enf s : Parse TokenStream Err Value).Meets (fun _ _ => True)
      (fun e _ => e = .make s.state_.loc "expect token token::Type::Enf") True True := by
  have quiet {α : Type} {Q : α → TokenStream → Prop} {r : Parse TokenStream Err α} {E : Err → TokenStream → Prop}
      (h : r.Meets Q (fun _ _ => False) True True) : r.Meets Q E True True :=
    h.mono (fun _ _ => id) (fun _ _ => False.elim) id id
  refine meets_bind (quiet (peek_coherent coherent)) ?_
  rintro v t ⟨there, coherent', -, -, same⟩
  cases v with
  | none => exact absurd rfl there
  | some w =>
    refine meets_bind (Q := fun _ u => u.state_.loc = s.state_.loc) ?_ fun w u here => ?_
    · refine meets_bind (quiet (peek_coherent coherent')) ?_
      rintro v u ⟨-, -, -, -, same'⟩
      cases v with
      | none => trivial
      | some w => exact same'.trans same
    · split
      · exact meets_bind (quiet (sure_next u)) fun _ _ _ => trivial
      · exact congrArg (Err.make · _) here

/-- A parse that fails says where, from the inside out: either it was ended by a fatal error, and the last entry
is the beginning of the source, or the only entry is where no statement begins. -/
theorem Root.backtrace {e : Err} {t : TokenStream} (failed : Root.parse rounds (TokenStream.init src) = .err e t) :
    Backtrace src 0 e ∧
      (e.is_fatal_ = true ∧ 2 ≤ e.err_stack_.length ∧ e.err_stack_.getLast? = some (.init, "parse root err") ∨
        ∃ p l, Located src p l ∧ e = .make l "expect token token::Type::Enf") := by
  have start : (track src).valid (TokenStream.init src) := ⟨coherent_init src, rfl⟩
  have returns : (track src).Returns (Block.parse rounds) := returns_block
  have block := (returns _ start).and (Block.raises_fatal (TokenStream.init src))
  have meets : (Root.parse rounds (TokenStream.init src)).Meets (fun _ _ => True)
      (fun e _ => Backtrace src 0 e ∧
        (e.is_fatal_ = true ∧ 2 ≤ e.err_stack_.length ∧ e.err_stack_.getLast? = some (.init, "parse root err") ∨
          ∃ p l, Located src p l ∧ e = .make l "expect token token::Type::Enf")) True True := by
    refine meets_guarded (meets_bind (meets_attempt block) ?_)
    rintro (e | block) t post
    · obtain ⟨⟨⟨coherent, source⟩, same, known⟩, is_fatal⟩ := post
      have here : Located src 0 t.state_.loc := by
        have located := coherent.located
        rwa [source, show t.state_.pos = 0 from same] at located
      have first : t.state_.loc = .init := here.unique ⟨[], .nil⟩
      have deep : 1 ≤ e.err_stack_.length := List.length_pos_iff.mpr known.some_
      refine ⟨known.Append here _, .inl ⟨is_fatal, ?_, ?_⟩⟩
      · simp [Err.Append, deep]
      · simp [Err.Append, Stream.loc, first]
    · obtain ⟨⟨valid, le⟩, -⟩ := post
      have skips := Parse.Meets.and (forward_skip_token t valid) (sure_skip_token .Enl rounds t)
      refine meets_bind (skips.mono (fun _ _ => id) (fun _ _ both => both.2.elim) id id) ?_
      rintro _ u ⟨⟨⟨coherent, rfl⟩, -⟩, -⟩
      refine meets_bind (Q := fun _ _ => True) ((expect_enf_meets coherent).mono (fun _ _ => id) ?_ id id) ?_
      · rintro e - rfl
        have single := Backtrace.single coherent.located "expect token token::Type::Enf" false
        exact ⟨single.earlier (Nat.zero_le _), .inr ⟨_, _, coherent.located, rfl⟩⟩
      · exact fun _ _ _ => trivial
  rw [failed] at meets
  exact meets

theorem Root.backtrace_sample : ∃ src e t, Root.parse 20 (TokenStream.init src) = .err e t ∧
    e = ⟨[(⟨2, 10⟩, "expect token token::Type::Symbol"), (⟨2, 1⟩, "parse block error"), (⟨1, 1⟩, "parse root err")],
      true⟩ ∧ Backtrace src 0 e := by
  have run : (Root.parse 20 (TokenStream.init (bytes "func f()\x7b\nfunc g(a \x7b\n"))).error =
      some ⟨[(⟨2, 10⟩, "expect token token::Type::Symbol"), (⟨2, 1⟩, "parse block error"), (⟨1, 1⟩, "parse root err")],
        true⟩ := by
    decide +kernel
  cases result : Root.parse 20 (TokenStream.init (bytes "func f()\x7b\nfunc g(a \x7b\n")) with
  | err e t =>
    rw [result] at run
    exact ⟨_, e, t, result, Option.some.inj run, (backtrace result).1⟩
  | ok | abort | out_of_fuel =>
    rw [result] at run
    cases run

end Root

end Mygo

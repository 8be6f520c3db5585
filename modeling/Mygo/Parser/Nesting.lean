import Mygo.Parser.Stamps

namespace Mygo

open Lexer Parser TokenStream

namespace Spans

variable {src : Bytes} {α β : Type}

section Statements

variable {rounds : Nat} {block : Parsing TokenStream Block}

theorem reads_params (left : Nat) :
    Reads src (fun s _ t => Marks src s t []) (Function.parse_args left : Parsing TokenStream _) := by
  induction left with
  | zero => exact .of fun s start => start
  | succ left ih =>
    refine .of fun s start => ?_
    refine lands_peek_type start fun kind t sees => ?_
    split
    · refine lands_expect (fun _ _ => ⟨_, rfl⟩) nofun (sees.marks start) fun _ u named => ?_
      refine lands_expect (fun _ _ => ⟨_, rfl⟩) nofun named fun _ v typed => ?_
      refine (reads_skip_once (T := .Comma) nofun).bind typed fun _ w further => ?_
      exact ih.bind (typed.skip further) fun args x rest => (typed.skip further).skip rest
    · exact sees.marks start

theorem reads_returns (left : Nat) :
    Reads src (fun s _ t => Marks src s t []) (Function.parse_returns left : Parsing TokenStream _) := by
  induction left with
  | zero => exact fun _ _ _ => trivial
  | succ left ih =>
    refine .of fun s start => ?_
    refine lands_is_token start (fun t sees => ?_) fun kind t sees _ => sees.marks start
    refine reads_peeked.bind (sees.marks start) fun n u sees' => ?_
    have symbol : n.type_ = .Symbol := (sees'.begins.back sees.toStays).unique sees.begins
    refine lands_next (sees.marks start) sees' (by rw [symbol]; nofun) fun v so_far => ?_
    exact ih.bind so_far fun returns w rest => so_far.skip rest

theorem reads_function (h : Nests src Node.spansBlock block) :
    Nests src Node.spans (Function.parse block rounds) := by
  refine Reads.guard fun s start => lands_expect (fun _ _ => ⟨_, rfl⟩) nofun start fun _ t keyword => ?_
  refine reads_peeked.bind keyword fun n u sees => ?_
  refine lands_step sees fun v w _ steps => ?_
  have behind : Marks src w w [] := .here steps.coherent steps.source rfl
  refine (reads_expect fun _ _ => ⟨_, rfl⟩).bind behind ?_
  rintro _ x ⟨-, w', o, sees', opened, steps'⟩
  have plain : ¬ Untyped (visible (src.drop u.state_.pos)) := by
    rintro ⟨k, n, a, rest, same, var, symbol, -⟩
    obtain ⟨vs, head⟩ := visible_head steps.here
    obtain rfl := (List.cons.inj (head.symm.trans same)).1
    rw [steps.behind (by rw [var]; nofun)] at same
    have name := begins_visible (List.cons.inj same).2 symbol
    exact nomatch name.unique sees'.begins
  have named : Marks src s w [] := (sees.marks keyword).step steps plain
  have so_far : Marks src s x [] :=
    (sees'.marks named).step steps' (untyped_var steps'.here (by rw [opened]; nofun))
  refine (reads_params 1000).bind so_far fun args y params => ?_
  refine lands_expect (fun _ _ => ⟨_, rfl⟩) nofun (so_far.skip params) fun _ z closed => ?_
  refine (reads_returns 99).bind closed fun returns t₁ types => ?_
  refine lands_expect (fun _ _ => ⟨_, rfl⟩) nofun (closed.skip types) fun _ t₂ braced => ?_
  refine lands_skip nofun braced fun t₃ lines => ?_
  refine h.bind lines (fun body t₄ inner => ?_) fun _ t₄ stays => stays.fails
  refine lands_expect (fun _ _ => ⟨_, rfl⟩) nofun (lines.append inner) fun _ t₅ last => ?_
  exact last.node

theorem reads_braced {msg : String} (h : Nests src Node.spansBlock block) :
    Reads src (fun s b t => Marks src s t [Node.spansBlock b]) (parse_braced block msg rounds) := by
  refine .of fun s start => ?_
  refine lands_expect (fun _ _ => ⟨_, rfl⟩) nofun start fun _ t opened => ?_
  refine lands_skip nofun opened fun u lines => ?_
  refine h.bind lines (fun b v inner => ?_) fun _ v stays => stays.fails
  exact lands_expect (fun _ _ => ⟨_, rfl⟩) nofun (lines.append inner) fun _ w closed => closed

theorem reads_branches (h : Nests src Node.spansBlock block) (left : Nat) :
    Reads src (fun s r t => Marks src s t (Node.spansBranches r.1 ++ Node.spansTail r.2))
      (If.parse_branches block rounds left) := by
  induction left with
  | zero => exact fun _ _ _ => trivial
  | succ left ih =>
    refine .of fun s start => ?_
    refine (reads_expr rounds).bind start (fun cond t ⟨first, _⟩ => ?_) fun _ t stays => stays.fails
    refine (reads_braced h).bind first fun body u braced => ?_
    have branch := first.append braced
    refine lands_is_token branch (fun v sees => ?_) fun kind v sees _ => sees.marks branch
    refine lands_next branch sees nofun fun w otherwise => ?_
    split
    · trivial
    · refine lands_is_token otherwise (fun x sees' => ?_) fun kind x sees' _ => ?_
      · refine lands_next otherwise sees' nofun fun y again => ?_
        exact ih.bind again fun r z rest => again.append rest
      · refine (reads_braced h).bind (sees'.marks otherwise) fun tail y last => ?_
        exact (sees'.marks otherwise).append last

theorem reads_if (h : Nests src Node.spansBlock block) :
    Nests src Node.spans (If.parse block rounds) := by
  refine Reads.guard fun s start => lands_expect (fun _ _ => ⟨_, rfl⟩) nofun start fun _ t keyword => ?_
  exact (reads_branches h 1000).bind keyword fun r u branches => (keyword.append branches).node

theorem Restores.option {p : Parsing TokenStream α} {f : α → SpanTree Loc} {k : Except Err α → Parsing TokenStream β}
    {Q : β → TokenStream → Prop} {s t : TokenStream} {cs : List (SpanTree Loc)}
    (h : Nests src f p) (so_far : Marks src s t cs)
    (hf : ∀ r u, Marks src s u (cs ++ r.toOption.toList.map f) → Lands src Q (k r u)) :
    Lands src Q ((attempt p >>= k) t) := by
  refine h.bind so_far (fun a u part => hf (.ok a) u (so_far.append part)) fun e u stays => hf (.error e) u ?_
  rw [Except.toOption, Option.toList, List.map_nil, List.append_nil]
  exact stays.marks so_far

theorem reads_for (h : Nests src Node.spansBlock block) :
    Nests src Node.spans (For.parse block rounds) := by
  refine Reads.guard fun s start => lands_expect (fun _ _ => ⟨_, rfl⟩) nofun start fun _ t keyword => ?_
  refine (reads_declaration rounds).option keyword fun decl t₁ init => ?_
  refine lands_expect (fun _ _ => ⟨_, rfl⟩) nofun init fun _ t₂ first => ?_
  have expr : Nests src Expr.spans (Expr.parse rounds) := (reads_expr rounds).mono fun _ _ _ => And.left
  refine expr.option first fun cond t₃ finish => ?_
  refine lands_expect (fun _ _ => ⟨_, rfl⟩) nofun finish fun _ t₄ second => ?_
  refine (reads_assignment rounds).option second fun step t₅ stepped => ?_
  refine (reads_braced h).bind stepped fun body t₆ braced => ?_
  have whole := (stepped.append braced).node
  simp only [List.append_assoc] at whole
  exact whole

theorem Restores.map {p : Parsing TokenStream α} {f : α → SpanTree Loc} {g : α → Node} (h : Nests src f p)
    (same : ∀ a, (g a).spans = f a) : Nests src Node.spans (g <$> p) := by
  intro s coherent source
  refine meets_bind (h s coherent source) fun a t marks => ?_
  change Marks src s t [(g a).spans]
  rw [same a]
  exact marks

theorem nests_funcs (h : Nests src Node.spansBlock block) :
    ∀ f ∈ Block.parse_funcs block rounds, Nests src Node.spans f := by
  have expr : Nests src Expr.spans (Expr.parse rounds) := (reads_expr rounds).mono fun _ _ _ => And.left
  simp only [Block.parse_funcs, List.forall_mem_cons]
  exact ⟨(reads_declaration rounds).map fun _ => by rw [Node.spans],
    (reads_assignment rounds).map fun _ => by rw [Node.spans], expr.map fun _ => by rw [Node.spans], reads_if h,
    reads_function h, (reads_return rounds).map fun _ => by rw [Node.spans], reads_for h,
    (reads_typedef rounds).map fun _ => by rw [Node.spans], List.forall_mem_nil _⟩

theorem reads_first_of {fs : List (Parsing TokenStream Node)} (h : ∀ f ∈ fs, Nests src Node.spans f) :
    Reads src (fun s r t => (r = none → Stays src s t) ∧ ∀ node, r = some node → Marks src s t [node.spans])
      (Block.first_of fs) := by
  induction fs with
  | nil => exact fun s coherent source => ⟨fun _ => ⟨coherent, source, rfl⟩, nofun⟩
  | cons f fs ih =>
    obtain ⟨first, others⟩ := List.forall_mem_cons.mp h
    refine .of fun s start => ?_
    refine first.bind start (fun node t marks => ⟨nofun, fun node' same => ?_⟩) fun e t stays => ?_
    · cases same
      exact marks
    · simp only
      split
      · exact stays.fails
      · refine (ih others t stays.coherent stays.source).mono ?_ (fun _ _ => id) id id
        rintro r u ⟨nothing, found⟩
        exact ⟨fun none => stays.trans (nothing none), fun node some_ => (found node some_).back stays.same⟩

theorem reads_nodes (h : Nests src Node.spansBlock block) (left : Nat) :
    Reads src (fun s nodes t => Marks src s t (Node.spansNodes nodes)) (Block.parse_nodes block rounds left) := by
  induction left with
  | zero => exact fun _ _ _ => trivial
  | succ left ih =>
    refine .of fun s start => lands_skip nofun start fun t lines => ?_
    refine (reads_first_of (nests_funcs h)).bind lines fun r u ⟨nothing, found⟩ => ?_
    cases r with
    | none => exact (nothing rfl).marks lines
    | some node =>
      have first := lines.append (found node rfl)
      exact ih.bind first fun nodes v rest => first.append rest

theorem nests_block (rounds : Nat) : Nests src Node.spansBlock (Block.parse rounds) := by
  induction rounds with
  | zero => exact fun _ _ _ => trivial
  | succ rounds ih =>
    exact Reads.guard fun s start => (reads_nodes ih 100000).bind start fun nodes t marks => marks.node

theorem nests_root (rounds : Nat) : Nests src Root.spans (Root.parse rounds) := by
  refine Reads.guard fun s start => (nests_block rounds).bind start (fun b t marks => ?_) fun _ t stays => ?_
  · refine lands_skip nofun marks fun u lines => ?_
    exact lands_expect (fun _ _ => ⟨_, rfl⟩) nofun lines fun _ v last => last.node
  · exact stays.fails

end Statements

end Spans

namespace TokenStream

variable {src : Bytes} {p q : Nat} {l m : Loc} {v w : Value} {vs before rest : List Value}

theorem untyped_inside (untyped : Untyped (visible (src.drop p))) : p < src.length := by
  by_contra outside
  exact untyped_var (token_end (Nat.le_of_not_lt outside)) nofun untyped

theorem words_before (tiles : Tiles src p l vs q m) (here : token src q = some w) (word : w.type_ ≠ .Space)
    (inside : q < src.length) : ∃ before, words (src.drop p) = before ++ visible (src.drop q) := by
  induction tiles with
  | nil => exact ⟨[], words_visible here word⟩
  | @cons p v l vs q m first rest ih =>
    obtain ⟨before, seen⟩ := ih here inside
    obtain ⟨u, parts, text⟩ := token_split first
    have positive := (token_inside ((Nat.le_add_right _ _).trans_lt (rest.le.trans_lt inside)) first).2.1
    have more : u ≠ [] := by
      rintro rfl
      rw [text] at positive
      exact Nat.not_lt_zero _ positive
    rw [token, parts] at first
    by_cases space : v.type_ = .Space
    · exact ⟨before, by rw [parts, words_space first text more space, seen]⟩
    · exact ⟨v :: before, by rw [parts, words_token first text more space, seen, List.cons_append]⟩

theorem Located.following (h : Located src p l) (here : token src p = some v) (inside : v.type_ ≠ .Enf)
    (more : words (src.drop (p + v.len_)) ≠ []) :
    ∃ q m, Located src q m ∧ p < q ∧ visible (src.drop q) = words (src.drop (p + v.len_)) := by
  have positive : 1 ≤ v.len_ := by
    refine (token_inside (Nat.lt_of_not_le fun outside => ?_) here).2.1
    exact inside ((token_enf here).mpr outside)
  have settled_ : Coherent (settled src p l v v) := coherent_settled h here
  obtain ⟨spaces, q, m, tiles, all, ends⟩ := settled_.next here
  cases tiles with
  | cons first others =>
    have passed := words_spaces others all
    have further : p + v.len_ ≤ q := others.le
    rcases ends with ⟨stuck, -⟩ | ⟨w, there, word, -⟩
    · exact absurd (passed.trans (words_none stuck)) more
    · refine ⟨q, m, h.next (.cons first others), by omega, ?_⟩
      exact (passed.trans (words_visible there word)).symm

theorem Located.reaches (h : Located src p l) (seen : visible (src.drop p) = before ++ rest) (later : before ≠ [])
    (more : rest ≠ []) : ∃ q m, Located src q m ∧ p < q ∧ visible (src.drop q) = rest := by
  induction before generalizing p l with
  | nil => exact absurd rfl later
  | cons v before ih =>
    cases here : token src p with
    | none => exact nomatch (visible_none here).symm.trans seen
    | some w =>
      have behind : before ++ rest ≠ [] := by simp [more]
      have inside : w.type_ ≠ .Enf := by
        intro enf
        rw [visible_end here enf] at seen
        exact behind (List.cons.inj seen).2.symm
      rw [visible_token here inside] at seen
      have tail : words (src.drop (p + w.len_)) = before ++ rest := (List.cons.inj seen).2
      obtain ⟨q, m, located, further, shown⟩ := h.following here inside (tail ▸ behind)
      cases before with
      | nil => exact ⟨q, m, located, further, shown.trans tail⟩
      | cons w' before =>
        obtain ⟨r, n, located', further', shown'⟩ := ih located (shown.trans tail) (List.cons_ne_nil _ _)
        exact ⟨r, n, located', further.trans further', shown'⟩

theorem clear_source : Clear src 0 src.length ↔
    ∀ before rest, visible src = before ++ rest → Untyped rest → before = [] := by
  constructor
  · intro clear before rest seen untyped
    by_contra later
    have more : rest ≠ [] := by
      rintro rfl
      obtain ⟨k, n, a, rest, same, -⟩ := untyped
      cases same
    obtain ⟨q, m, located, further, shown⟩ := Located.reaches ⟨[], .nil⟩ seen later more
    rw [← shown] at untyped
    exact absurd (clear q m located (Nat.zero_le _) (untyped_inside untyped) untyped) (Nat.ne_of_gt further)
  · rintro only r l ⟨vs, tiles⟩ - inside untyped
    cases tiles with
    | nil => rfl
    | @cons _ v _ vs _ _ first others =>
      cases here : token src r with
      | none =>
        rw [visible_none here] at untyped
        obtain ⟨k, n, a, rest, same, -⟩ := untyped
        cases same
      | some w =>
        have word : w.type_ ≠ .Space := by
          intro space
          exact untyped_var here (by rw [space]; nofun) untyped
        obtain ⟨before, seen⟩ := words_before others here word inside
        have kind := (token_inside (Nat.zero_lt_of_lt inside) first).1
        have whole : visible src = (v :: before) ++ visible (src.drop r) := by
          have behind := visible_token first kind
          rw [seen, List.drop_zero] at behind
          exact behind
        exact nomatch only _ _ whole untyped

end TokenStream

theorem nested_clear {src : Bytes} {tree : Root} (accepted : Accepts src tree) :
    tree.spans.Nested ↔ Clear src 0 src.length := by
  obtain ⟨rounds, s, run⟩ := accepted
  have nests : Spans.Nests src Root.spans (Root.parse rounds) := Spans.nests_root rounds
  have marks := nests (TokenStream.init src) (coherent_init src) rfl
  have ends : (Root.parse rounds (TokenStream.init src)).Meets (fun _ t => (measure src).rest t = 0)
      (fun _ _ => True) True True := (counts_measure src).root_ends ⟨coherent_init src, rfl⟩
  rw [run] at marks ends
  have last : s.state_.pos = src.length := by
    have left : src.length - s.state_.pos = 0 := ends
    have within := marks.coherent.located.within
    rw [marks.source] at within
    omega
  have nested := marks.nested
  rw [List.forall_mem_singleton, last] at nested
  exact nested

/-- The spans of an accepted source are nested exactly when no declaration without a type follows another
token. -/
theorem spans_nest_iff {src : Bytes} {tree : Root} (accepted : Accepts src tree) : tree.spans.Nested ↔
    ∀ before rest, visible src = before ++ rest → Untyped rest → before = [] :=
  (nested_clear accepted).trans clear_source

theorem spans_nest_sample :
    ∃ tree, Accepts (bytes "var x=1\nvar y int=f(x)") tree ∧ tree.spans.Nested := by
  obtain ⟨tree, accepted⟩ := accepts_of_value (bytes "var x=1\nvar y int=f(x)") 9 (by decide +kernel)
  refine ⟨tree, accepted, (spans_nest_iff accepted).mpr fun before rest seen untyped => ?_⟩
  have typed : ∀ ts ∈ (visible (bytes "var x=1\nvar y int=f(x)")).tail.tails, ¬ Untyped ts := by decide +kernel
  cases before with
  | nil => rfl
  | cons v before =>
    refine absurd untyped (typed rest ((List.mem_tails _ _).mpr ?_))
    rw [seen]
    exact ⟨before, rfl⟩

/-- The type of `var x=1` in the second line has its span in the first. -/
theorem missing_type_outside : ∃ tree, Accepts (bytes "\nvar x=1") tree ∧ ¬ tree.spans.Nested := by
  obtain ⟨tree, accepted⟩ := accepts_of_value (bytes "\nvar x=1") 9 (by decide +kernel)
  refine ⟨tree, accepted, fun nested => ?_⟩
  have clear := clear_source.mp ((nested_clear accepted).mp nested)
  have seen : visible (bytes "\nvar x=1") = [.make .Enl 1] ++ [.make .Var 3, .CreateSymbol 1 [120],
      .make .Assign 1, .CreateInt 1 1, .make .Enf 0] := by decide +kernel
  have first := clear _ _ seen ⟨_, _, _, _, rfl, rfl, rfl, rfl⟩
  cases first

end Mygo

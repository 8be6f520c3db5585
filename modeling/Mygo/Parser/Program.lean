import Mygo.Parser.RoundTrip

namespace Mygo

open Parser

variable {n : Nat} {u t : Value} {us ts : List Value}

namespace Node

/-- A printed statement on a line of its own is the next statement of its block. -/
def Parses (node : Node) : Prop :=
  ∀ n u us, node.print.length + 2 ≤ n → u.type_ = .Enl →
    Block.first_of (Block.parse_funcs (Block.parse n) n) ⟨node.print ++ u :: us⟩ =
      .ok (some node.erase) (⟨u :: us⟩ : Tokens)

def ParsesNodes (nodes : List Node) : Prop :=
  ∀ n k t ts, (printNodes nodes).length + 2 ≤ n → nodes.length < k →
    Block.closes t.type_ = true → t.type_ ≠ .Enl →
    Block.parse_nodes (Block.parse n) n k ⟨printNodes nodes ++ t :: ts⟩ =
      .ok (eraseNodes nodes) (⟨t :: ts⟩ : Tokens)

def ParsesBlock (block : Block) : Prop :=
  ∀ n msg u us, (printBlock block).length ≤ n →
    parse_braced (Block.parse n) msg n ⟨printBlock block ++ u :: us⟩ =
      .ok (eraseBlock block) (⟨u :: us⟩ : Tokens)

def ParsesBranches (branches : List If.Branch) : Prop :=
  ∀ n left tail u us, branches ≠ [] → branches.length + tail.toList.length ≤ left →
    (printBranches branches ++ printTail tail).length ≤ n → u.type_ = .Enl →
    (∀ block ∈ tail, ParsesBlock block) →
    If.parse_branches (Block.parse n) n left
        ⟨(printBranches branches ++ printTail tail).drop 2 ++ u :: us⟩ =
      .ok (eraseBranches branches, eraseTail tail) (⟨u :: us⟩ : Tokens)

theorem print_head {node : Node} (printable : node.Printable) :
    ∃ v vs, node.print = v :: vs ∧ v.type_ ≠ .Enl := by
  cases node with
  | Declaration decl => exact ⟨_, _, rfl, by simp⟩
  | Assignment asgm => exact ⟨_, _, rfl, by simp⟩
  | Expr expr =>
    obtain ⟨v, w, ws, head, begin, -⟩ := Expr.Shape.opens printable (Print.token .Enf) [] (by simp)
    rw [Node.print]
    cases printed : expr.print with
    | nil => simp [printed] at head
    | cons v' vs =>
      obtain ⟨rfl, -⟩ := List.cons.inj (printed ▸ head)
      refine ⟨v', vs, rfl, ?_⟩
      intro line
      rw [line] at begin
      cases begin
  | If start end_ branches tail =>
    cases branches with
    | nil => exact absurd rfl printable.1
    | cons branch branches => exact ⟨Print.token .If, _, rfl, by simp⟩
  | Function => exact ⟨_, _, rfl, by simp⟩
  | Return => exact ⟨_, _, rfl, by simp⟩
  | For => exact ⟨_, _, rfl, by simp⟩
  | Typedef => exact ⟨_, _, rfl, by simp⟩

theorem printNodes_head {nodes : List Node} (ts : List Value) (printable : PrintableNodes nodes)
    (close : t.type_ ≠ .Enl) : ∃ v vs, printNodes nodes ++ t :: ts = v :: vs ∧ v.type_ ≠ .Enl := by
  cases nodes with
  | nil => exact ⟨t, ts, rfl, close⟩
  | cons node nodes =>
    obtain ⟨v, vs, head, other⟩ := print_head printable.1
    exact ⟨v, _, by rw [printNodes, head]; rfl, other⟩

theorem skip_line (n : Nat) {nodes : List Node} (ts : List Value) (printable : PrintableNodes nodes)
    (close : t.type_ ≠ .Enl) :
    skip_token .Enl (n + 2) ⟨Print.token .Enl :: (printNodes nodes ++ t :: ts)⟩ =
      .ok () (⟨printNodes nodes ++ t :: ts⟩ : Tokens) := by
  obtain ⟨v, vs, head, other⟩ := printNodes_head ts printable close
  rw [head, skip_token_cons (Expr.token_type .Enl) nofun (List.cons_ne_nil v vs), skip_token_stop other]

theorem printBlock_head (block : Block) (ts : List Value) :
    ∃ v vs, printBlock block ++ ts = v :: vs ∧ v.type_ = .LBrace := by
  cases block with
  | mk start end_ nodes => exact ⟨_, _, rfl, by simp⟩

theorem length_printBlock (start end_ : Loc) (nodes : List Node) :
    (printBlock (.mk start end_ nodes)).length = (printNodes nodes).length + 3 := by
  simp [printBlock]

end Node

theorem Declaration.parses_node {decl : Declaration} (printable : decl.Printable) :
    (Node.Declaration decl).Parses := by
  intro n u us bound line
  obtain ⟨n, rfl⟩ : ∃ m, n = m + 1 := ⟨n - 1, by omega⟩
  simp only [Node.print] at bound
  exact Block.first_of_ok (map_ok (decl.parse_printed printable (by omega) (by rw [line]; rfl)))

theorem Assignment.parses_node {asgm : Assignment} (printable : asgm.Printable) :
    (Node.Assignment asgm).Parses := by
  intro n u us bound line
  obtain ⟨n, rfl⟩ : ∃ m, n = m + 1 := ⟨n - 1, by omega⟩
  simp only [Node.print] at bound
  have parsed := @Assignment.parse_printed n u us asgm printable (by omega)
    (show Expr.ends_comparison u.type_ = true by rw [line]; rfl)
  simp only [Node.print, print, List.cons_append] at parsed ⊢
  rw [Block.parse_funcs, Block.first_of_refused (Declaration.refuses (by simp)).map]
  exact Block.first_of_ok (map_ok parsed)

theorem Expr.parses_node {expr : Expr} (shape : Shape (.comparison expr)) :
    (Node.Expr expr).Parses := by
  intro n u us bound line
  simp only [Node.print] at bound
  obtain ⟨n, rfl⟩ : ∃ m, n = m + 1 := ⟨n - 1, by omega⟩
  have parsed := shape.parses n u us (by omega) (by rw [line]; rfl)
  obtain ⟨v, w, ws, head, begin, second⟩ := shape.opens u us (by rw [line]; nofun)
  have decl : v.type_ ≠ .Var := by
    intro h
    rw [h] at begin
    cases begin
  have asgm : Refuses (Assignment.parse (n + 1)) ⟨v :: w :: ws⟩ := by
    by_cases symbol : v.type_ = .Symbol
    · exact Assignment.refuses_symbol symbol second
    · exact Assignment.refuses symbol
  rw [Node.print, Block.parse_funcs]
  rw [head] at parsed ⊢
  rw [Block.first_of_refused (Declaration.refuses decl).map, Block.first_of_refused asgm.map]
  exact Block.first_of_ok (map_ok parsed)

theorem Return.parses_node {ret : Return} (printable : ret.Printable) : (Node.Return ret).Parses := by
  intro n u us bound line
  simp only [Node.print] at bound
  obtain ⟨n, rfl⟩ : ∃ m, n = m + 1 := ⟨n - 1, by omega⟩
  have parsed := @Return.parse_printed n u us ret printable (by omega) line
  simp only [Node.print, print, List.cons_append] at parsed ⊢
  rw [Block.first_of_keyword (by rfl) (by simp), Block.first_of_refused (If.refuses (by simp)),
    Block.first_of_refused (Function.refuses (by simp))]
  exact Block.first_of_ok (map_ok parsed)

theorem Typedef.parses_node {tdef : Typedef} (printable : tdef.Printable) :
    (Node.Typedef tdef).Parses := by
  intro n u us bound line
  obtain ⟨n, rfl⟩ : ∃ m, n = m + 2 := ⟨n - 2, by omega⟩
  have parsed := @Typedef.parse_printed n u us tdef printable
  simp only [Node.print, print, List.cons_append] at parsed ⊢
  rw [Block.first_of_keyword (by rfl) (by simp), Block.first_of_refused (If.refuses (by simp)),
    Block.first_of_refused (Function.refuses (by simp)),
    Block.first_of_refused (Return.refuses (by simp)).map, Block.first_of_refused (For.refuses (by simp))]
  exact Block.first_of_ok (map_ok parsed)

theorem Block.parses_nodes {block : Block} (ts : List Value) (printable : Node.PrintableBlock block)
    (parses : Node.ParsesNodes block.nodes_) (bound : (Node.printNodes block.nodes_).length + 2 ≤ n)
    (close : closes t.type_ = true) (other : t.type_ ≠ .Enl) :
    parse (n + 1) ⟨Node.printNodes block.nodes_ ++ t :: ts⟩ =
      .ok (Node.eraseBlock block) (⟨t :: ts⟩ : Tokens) := by
  obtain ⟨start, end_, nodes⟩ := block
  exact parse_ok (parses n 100000 t ts bound printable.1 close other)

theorem Block.parses_braced {block : Block} (printable : Node.PrintableBlock block)
    (parses : Node.ParsesNodes block.nodes_) : Node.ParsesBlock block := by
  obtain ⟨start, end_, nodes⟩ := block
  intro n msg u us bound
  rw [Node.length_printBlock] at bound
  obtain ⟨n, rfl⟩ : ∃ m, n = m + 2 := ⟨n - 2, by omega⟩
  have line := Node.skip_line n (t := Print.token .RBrace) (u :: us) printable.2 (by simp)
  have parsed := attempt_ok (parses_nodes (n := n + 1) (t := Print.token .RBrace) (u :: us)
    printable parses (by simp only [nodes_]; omega) (by rfl) (by simp))
  simp only [Node.printBlock, nodes_, List.cons_append, List.append_assoc, List.nil_append] at *
  rw [parse_braced, bind_ok (expect_token_ok (Expr.token_type .LBrace) nofun (List.cons_ne_nil _ _)),
    bind_ok line, bind_ok parsed]
  simp only
  rw [bind_ok (expect_token_ok (Expr.token_type .RBrace) nofun (List.cons_ne_nil _ _))]
  rfl

theorem Function.parses_node {start end_ : Loc} {name : Bytes} {args : List (Bytes × Bytes)}
    {returns : List Bytes} {block : Block}
    (printable : (Node.Function start end_ name args returns block).Printable)
    (parses : Node.ParsesNodes block.nodes_) :
    (Node.Function start end_ name args returns block).Parses := by
  obtain ⟨args_limit, returns_limit, printable⟩ := printable
  obtain ⟨start', end', nodes⟩ := block
  intro n u us bound line
  simp only [Node.print, Node.length_printBlock, List.length_cons, List.length_append] at bound
  obtain ⟨n, rfl⟩ : ∃ m, n = m + 2 := ⟨n - 2, by omega⟩
  have skipped := Node.skip_line n (t := Print.token .RBrace) (u :: us) printable.2 (by simp)
  have parsed := attempt_ok (Block.parses_nodes (n := n + 1) (t := Print.token .RBrace) (u :: us)
    printable parses (by simp only [Block.nodes_]; omega) (by rfl) (by simp))
  have all_args ts : parse_args 1000 ⟨printArgs args ++ Print.token .RParent :: ts⟩ =
      .ok args (⟨Print.token .RParent :: ts⟩ : Tokens) :=
    parse_printed_args args args_limit (by simp)
  have all_returns ts : parse_returns 99 ⟨returns.map Print.symbol ++ Print.token .LBrace :: ts⟩ =
      .ok returns (⟨Print.token .LBrace :: ts⟩ : Tokens) :=
    parse_printed_returns returns returns_limit (by simp)
  simp only [Node.print, Node.printBlock, Block.nodes_, List.cons_append, List.append_assoc,
    List.nil_append] at *
  rw [Block.first_of_keyword (by rfl) (by simp), Block.first_of_refused (If.refuses (by simp))]
  apply Block.first_of_ok
  apply guard_ok
  rw [bind_ok (expect_token_ok (Expr.token_type .Func) nofun (List.cons_ne_nil _ _)),
    bind_ok peeked_cons, bind_ok (next_cons (by simp) (List.cons_ne_nil _ _)),
    bind_ok (expect_token_fatal_ok (Expr.token_type .LParent) nofun (by simp)), bind_ok (all_args _),
    bind_ok (expect_token_fatal_ok (Expr.token_type .RParent) nofun (by simp)), bind_ok (all_returns _),
    bind_ok (expect_token_err_ok (Expr.token_type .LBrace) nofun (List.cons_ne_nil _ _)),
    bind_ok skipped, bind_ok parsed]
  simp only
  rw [bind_ok (expect_token_ok (Expr.token_type .RBrace) nofun (List.cons_ne_nil _ _))]
  rfl

theorem For.parses_part {α β : Type} (p : Parsing Tokens β) (print : α → List Value) (erase : α → β)
    (a : Option α) (u : Value) (us : List Value) (parses : ∀ x ∈ a, p ⟨print x ++ u :: us⟩ = .ok (erase x) ⟨u :: us⟩)
    (refuses : Refuses p ⟨u :: us⟩) :
    ∃ r, attempt p ⟨printOption print a ++ u :: us⟩ = .ok r ⟨u :: us⟩ ∧
      r.toOption = a.map erase := by
  cases a with
  | none =>
    obtain ⟨e, refused, -⟩ := refuses
    exact ⟨_, attempt_err refused, rfl⟩
  | some x => exact ⟨_, attempt_ok (parses x rfl), rfl⟩

theorem For.parses_node {start end_ : Loc} {decl : Option Declaration} {cond : Option Expr}
    {step : Option Assignment} {block : Block}
    (printable : (Node.For start end_ decl cond step block).Printable)
    (parses : Node.ParsesBlock block) : (Node.For start end_ decl cond step block).Parses := by
  obtain ⟨decl_printable, cond_shape, step_printable, -⟩ := printable
  intro n u us bound line
  simp only [Node.print, List.length_cons, List.length_append] at bound
  obtain ⟨n, rfl⟩ : ∃ m, n = m + 1 := ⟨n - 1, by omega⟩
  obtain ⟨v, vs, head, brace⟩ := Node.printBlock_head block (u :: us)
  have body := parses (n + 1) "parse for error at" u us (by omega)
  obtain ⟨step', step_parsed, step_erased⟩ :=
    parses_part (Assignment.parse (n + 1)) Assignment.print Assignment.erase step v vs
      (fun a mem => a.parse_printed (step_printable a mem)
        (by rw [Option.mem_def.mp mem, printOption] at bound; omega) (by rw [brace]; rfl))
      (Assignment.refuses (by rw [brace]; nofun))
  obtain ⟨cond', cond_parsed, cond_erased⟩ :=
    parses_part (Expr.parse (n + 1)) Expr.print Expr.erase cond (Print.token .Semicolon)
      (printOption Assignment.print step ++ v :: vs)
      (fun e mem => (cond_shape e mem).parses n _ _
        (by rw [Option.mem_def.mp mem, printOption] at bound; omega) (by rfl))
      (Expr.refuses (by rfl))
  obtain ⟨decl', decl_parsed, decl_erased⟩ :=
    parses_part (Declaration.parse (n + 1)) Declaration.print Declaration.erase decl
      (Print.token .Semicolon) (printOption Expr.print cond ++ Print.token .Semicolon ::
        (printOption Assignment.print step ++ v :: vs))
      (fun d mem => d.parse_printed (decl_printable d mem)
        (by rw [Option.mem_def.mp mem, printOption] at bound; omega) (by rfl))
      (Declaration.refuses (by simp))
  simp only [Node.print, List.cons_append, List.append_assoc]
  rw [Block.first_of_keyword (by rfl) (by simp), Block.first_of_refused (If.refuses (by simp)),
    Block.first_of_refused (Function.refuses (by simp)),
    Block.first_of_refused (Return.refuses (by simp)).map]
  apply Block.first_of_ok
  apply guard_ok
  rw [head] at body ⊢
  rw [bind_ok (expect_token_ok (Expr.token_type .For) nofun (by simp)), bind_ok decl_parsed,
    bind_ok (expect_token_ok (Expr.token_type .Semicolon) nofun (by simp)), bind_ok cond_parsed,
    bind_ok (expect_token_ok (Expr.token_type .Semicolon) nofun (by simp)), bind_ok step_parsed,
    bind_ok body, decl_erased, cond_erased, step_erased]
  rfl

namespace If

theorem parses_branches_cons {cond : Expr} {block : Block} {branches : List Branch}
    (shape : Expr.Shape (.comparison cond)) (body : Node.ParsesBlock block)
    (rest : Node.ParsesBranches branches) : Node.ParsesBranches ((cond, block) :: branches) := by
  intro n left tail u us _ limit bound line tail_parses
  simp only [Node.printBranches, List.cons_append, List.append_assoc, List.length_cons,
    List.length_append] at limit bound
  obtain ⟨n, rfl⟩ : ∃ m, n = m + 1 := ⟨n - 1, by omega⟩
  obtain ⟨left, rfl⟩ : ∃ k, left = k + 1 := ⟨left - 1, by omega⟩
  obtain ⟨v, vs, head, brace⟩ := Node.printBlock_head block
    (Node.printBranches branches ++ (Node.printTail tail ++ u :: us))
  have parsed := attempt_ok (shape.parses n v vs (by omega) (by rw [brace]; rfl))
  simp only [Node.printBranches, List.cons_append, List.append_assoc, List.drop_succ_cons,
    List.drop_zero]
  rw [← head] at parsed
  rw [parse_branches, bind_ok parsed]
  simp only
  cases branches with
  | nil =>
    cases tail with
    | none =>
      simp only [Node.printBranches, Node.printTail, List.nil_append]
      rw [bind_ok (body (n + 1) _ u us (by omega)), bind_ok is_token_cons, if_neg (by simp [line])]
      rfl
    | some last =>
      simp only [Option.toList_some, List.length_cons, List.length_nil, Node.printBranches,
        Node.printTail] at limit bound
      have else_parsed := tail_parses last rfl (n + 1) "parse if error at" u us (by omega)
      simp only [Node.printBranches, Node.printTail, List.nil_append, List.cons_append]
      obtain ⟨w, ws, head', brace'⟩ := Node.printBlock_head last (u :: us)
      rw [head'] at else_parsed ⊢
      rw [bind_ok (body (n + 1) _ _ _ (by omega)), bind_ok is_token_cons, if_pos (by simp),
        bind_ok (next_cons (by simp) (List.cons_ne_nil w ws)), if_neg (by omega),
        bind_ok is_token_cons, if_neg (by simp [brace']), bind_ok else_parsed]
      rfl
  | cons branch branches =>
    have else_parsed := rest (n + 1) left tail u us (List.cons_ne_nil _ _) (by omega)
      (by simp only [List.length_append]; omega) line tail_parses
    simp only [List.length_cons] at limit
    simp only [Node.printBranches, List.cons_append, List.append_assoc, List.drop_succ_cons,
      List.drop_zero] at else_parsed ⊢
    rw [bind_ok (body (n + 1) _ _ _ (by omega)), bind_ok is_token_cons, if_pos (by simp),
      bind_ok (next_cons (by simp) (List.cons_ne_nil _ _)), if_neg (by omega),
      bind_ok is_token_cons, if_pos (by simp), bind_ok (next_cons (by simp) (by simp)),
      bind_ok else_parsed]
    rfl

theorem parses_node {start end_ : Loc} {branches : List Branch} {tail : Option Block}
    (printable : (Node.If start end_ branches tail).Printable)
    (parses : Node.ParsesBranches branches) (tail_parses : ∀ block ∈ tail, Node.ParsesBlock block) :
    (Node.If start end_ branches tail).Parses := by
  obtain ⟨some_branch, limit, -⟩ := printable
  intro n u us bound line
  simp only [Node.print, List.length_drop] at bound
  obtain ⟨n, rfl⟩ : ∃ m, n = m + 1 := ⟨n - 1, by omega⟩
  have parsed : If.parse_branches (Block.parse (n + 1)) (n + 1) 1000 _ = .ok _ (⟨u :: us⟩ : Tokens) :=
    parses (n + 1) 1000 tail u us some_branch limit (by omega) line tail_parses
  cases branches with
  | nil => exact absurd rfl some_branch
  | cons branch branches =>
    simp only [Node.print, Node.printBranches, List.cons_append, List.append_assoc,
      List.drop_succ_cons, List.drop_zero] at parsed ⊢
    rw [Block.first_of_keyword (by rfl) (by simp)]
    apply Block.first_of_ok
    apply guard_ok
    rw [bind_ok (expect_token_ok (Expr.token_type .If) nofun (by simp)), bind_ok parsed]
    rfl

end If

namespace Node

theorem parses_nodes_nil : ParsesNodes [] := by
  intro n k t ts bound limit close other
  obtain ⟨n, rfl⟩ : ∃ m, n = m + 1 := ⟨n - 1, by omega⟩
  obtain ⟨k, rfl⟩ : ∃ j, k = j + 1 := ⟨k - 1, by simp at limit; omega⟩
  simp only [printNodes, List.nil_append]
  rw [Block.parse_nodes, bind_ok (skip_token_stop other), bind_ok (Block.first_of_none close)]
  rfl

theorem parse_nodes_line {block : Parsing Tokens Block} {k : Nat} {nodes : List Node}
    (printable : PrintableNodes nodes) (close : t.type_ ≠ .Enl) :
    Block.parse_nodes block (n + 2) (k + 1) ⟨Print.token .Enl :: (printNodes nodes ++ t :: ts)⟩ =
      Block.parse_nodes block (n + 2) (k + 1) (⟨printNodes nodes ++ t :: ts⟩ : Tokens) := by
  rw [Block.parse_nodes, bind_ok (skip_line n ts printable close)]
  obtain ⟨v, vs, head, other⟩ := printNodes_head ts printable close
  rw [head, bind_ok (skip_token_stop other)]

theorem parses_nodes_cons {node : Node} {nodes : List Node} (printable : PrintableNodes (node :: nodes))
    (parses : node.Parses) (rest : ParsesNodes nodes) : ParsesNodes (node :: nodes) := by
  intro n k t ts bound limit close other
  simp only [printNodes, List.length_append, List.length_cons] at bound limit
  obtain ⟨n, rfl⟩ : ∃ m, n = m + 2 := ⟨n - 2, by omega⟩
  obtain ⟨k, rfl⟩ : ∃ j, k = j + 2 := ⟨k - 2, by omega⟩
  have parsed := parses (n + 2) (Print.token .Enl) (printNodes nodes ++ t :: ts) (by omega) (by simp)
  have others := rest (n + 2) (k + 1) t ts (by omega) (by omega) close other
  rw [← parse_nodes_line printable.2 other] at others
  obtain ⟨v, vs, head, head_other⟩ := print_head printable.1
  simp only [printNodes, List.append_assoc, List.cons_append]
  rw [head] at parsed ⊢
  rw [List.cons_append, Block.parse_nodes, bind_ok (skip_token_stop head_other)]
  rw [← List.cons_append, bind_ok parsed]
  simp only
  rw [bind_ok others]
  rfl

mutual

theorem parses (node : Node) (printable : node.Printable) : node.Parses := by
  cases node with
  | Declaration decl => exact decl.parses_node printable
  | Assignment asgm => exact asgm.parses_node printable
  | Expr expr => exact Expr.parses_node printable
  | If start end_ branches tail =>
    exact If.parses_node printable (parses_branches branches printable.2.2.1)
      (parses_tail tail printable.2.2.2)
  | Function start end_ name args returns block =>
    exact Function.parses_node printable (parses_inner block printable.2.2)
  | Return ret => exact Return.parses_node printable
  | For start end_ decl cond step block =>
    exact For.parses_node printable
      (Block.parses_braced printable.2.2.2 (parses_inner block printable.2.2.2))
  | Typedef tdef => exact Typedef.parses_node printable

theorem parses_inner (block : Block) (printable : PrintableBlock block) :
    ParsesNodes block.nodes_ := by
  cases block with
  | mk start end_ nodes => exact parses_nodes nodes printable.2

theorem parses_nodes (nodes : List Node) (printable : PrintableNodes nodes) : ParsesNodes nodes := by
  cases nodes with
  | nil => exact parses_nodes_nil
  | cons node nodes =>
    exact parses_nodes_cons printable (parses node printable.1) (parses_nodes nodes printable.2)

theorem parses_branches (branches : List If.Branch) (printable : PrintableBranches branches) :
    ParsesBranches branches := by
  cases branches with
  | nil => exact fun n left tail u us some_branch => absurd rfl some_branch
  | cons branch branches =>
    cases branch with
    | mk cond block =>
      exact If.parses_branches_cons printable.1
        (Block.parses_braced printable.2.1 (parses_inner block printable.2.1))
        (parses_branches branches printable.2.2)

theorem parses_tail (tail : Option Block) (printable : PrintableTail tail) :
    ∀ block ∈ tail, ParsesBlock block := by
  cases tail with
  | none => exact nofun
  | some block =>
    rintro _ ⟨⟩
    exact Block.parses_braced printable (parses_inner block printable)

end

end Node

namespace Root

def erase (root : Root) : Root := ⟨.init, .init, Node.eraseBlock root.block_⟩

def print (root : Root) : List Value := Node.printNodes root.nodes ++ [Print.token .Enf]

def Printable (root : Root) : Prop := Node.PrintableBlock root.block_

theorem parse_print (root : Root) (printable : root.Printable) (rounds : Nat)
    (enough : root.print.length + 2 ≤ rounds) :
    parse rounds ⟨root.print⟩ = .ok root.erase (⟨[Print.token .Enf]⟩ : Tokens) := by
  simp only [print, List.length_append, List.length_singleton] at enough
  obtain ⟨n, rfl⟩ : ∃ m, rounds = m + 1 := ⟨rounds - 1, by omega⟩
  have parsed := attempt_ok (Block.parses_nodes (n := n) (t := Print.token .Enf) [] printable
    (Node.parses_inner root.block_ printable) (by simp only [nodes] at enough; omega) (by rfl) (by simp))
  apply guard_ok
  rw [print, nodes, bind_ok parsed]
  simp only
  rw [bind_ok (skip_token_stop (by simp))]
  rfl

def sample : Root :=
  let a : Expr := .TOKEN .init .init (Print.symbol (bytes "a"))
  let one : Expr := .TOKEN .init .init (.CreateInt 1 1)
  let print : Expr := .TOKEN .init .init (Print.symbol (bytes "print"))
  ⟨.init, .init, .mk .init .init [.Function .init .init (bytes "main") [(bytes "a", bytes "int")] []
    (.mk .init .init [.If .init .init
      [(.OPS .init .init [.Equal] [a, one],
        .mk .init .init [.Expr (.FUNCALL .init .init [print, .OPS .init .init [.Sub] [a]])])]
      (some (.mk .init .init [.Return ⟨.init, .init, [.OPS .init .init [.Plus] [a, one]]⟩]))])]⟩

theorem sample_printable : sample.Printable := by
  have token {v : Value} (atomic : Expr.is_atomic v.type_ = true) :
      Expr.Shape (.product (.TOKEN .init .init v)) :=
    .product (.token atomic)
  have equal : Expr.Shape (.comparison (.OPS .init .init [.Equal] _)) :=
    .greater rfl (.sum (token (v := Print.symbol (bytes "a")) rfl))
      (.sum (token (v := .CreateInt 1 1) rfl))
  have minus : Expr.Shape (.comparison (.OPS .init .init [.Sub] [.TOKEN .init .init _])) :=
    .comparison (.sum (.product (.minus (v := Print.symbol (bytes "a")) rfl)))
  have call : Expr.Shape (.comparison (.FUNCALL .init .init (.TOKEN .init .init _ :: _))) :=
    .comparison (.sum (.product (.call (v := Print.symbol (bytes "print")) rfl
      (.args_cons minus .args_nil))))
  have plus : Expr.Shape (.comparison (.OPS .init .init [.Plus] _)) :=
    .comparison (.plus (token (v := Print.symbol (bytes "a")) rfl)
      (.summands_cons rfl (token (v := .CreateInt 1 1) rfl) .summands_nil) nofun)
  refine ⟨by decide, ⟨by decide, by decide, by decide, ⟨nofun, by decide, ?_, ?_⟩, trivial⟩, trivial⟩
  · exact ⟨equal, ⟨by decide, call, trivial⟩, trivial⟩
  · exact ⟨by decide, ⟨by decide, List.forall_mem_singleton.mpr plus⟩, trivial⟩

theorem parse_print_sample : parse 40 ⟨sample.print⟩ = .ok sample.erase (⟨[Print.token .Enf]⟩ : Tokens) :=
  parse_print sample sample_printable 40 (by decide)

end Root

end Mygo

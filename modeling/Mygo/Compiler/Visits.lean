import Mygo.Compiler.Locals

namespace Mygo

/-- What there is in a body, in source order.  The head of a loop, with `init` and `step`, is passed
over by the compiler. -/
inductive Visit
  | declaration (decl : Declaration)
  | assignment (asgm : Assignment)
  | expr (e : Expr)
  | jump
  | label
  | enter
  | leave
  | init (decl : Declaration)
  | step (asgm : Assignment)

mutual

def Node.visits : Node → List Visit
  | .Declaration decl => [.declaration decl]
  | .Assignment asgm => [.assignment asgm]
  | .Expr e => [.expr e]
  | .If _ _ branches tail => .jump :: (Node.visitsBranches branches ++ (Node.visitsTail tail ++ [.label]))
  | .For _ _ init _ step block =>
    .enter :: (init.toList.map .init ++ (step.toList.map .step ++ (block.visits ++ [.leave])))
  | .Function _ _ _ _ _ _ | .Return _ | .Typedef _ => []

def Node.visitsBranches : List (Expr × Block) → List Visit
  | [] => []
  | (_, block) :: branches => block.visits ++ Node.visitsBranches branches

def Node.visitsTail : Option Block → List Visit
  | none => []
  | some block => block.visits

def Block.visits : Block → List Visit
  | .mk _ _ nodes => .enter :: (Node.visitsAll nodes ++ [.leave])

def Node.visitsAll : List Node → List Visit
  | [] => []
  | node :: nodes => node.visits ++ Node.visitsAll nodes

end

abbrev Visit.State := Compiler × List Address

namespace Visit

open Compiler

variable (host : Host)

def run : Visit → State → Option State
  | .declaration decl, (c, labels) => (compile_declaration host decl c).map (·, labels)
  | .assignment asgm, (c, labels) => (compile_assignment host asgm c).map (·, labels)
  | .expr e, (c, labels) => (compile_expr host e c).map (·, labels)
  | .jump, (c, labels) => some (openIf c, c.alloc_new_label.1 :: labels)
  | .label, (c, labels) => some (c.emit [⟨.Label, labels.headI, 0, 0⟩], labels.tail)
  | .enter, p | .leave, p | .init _, p | .step _, p => some p

def runAll : List Visit → State → Option State
  | [], p => some p
  | v :: vs, p => do
    let p ← v.run host p
    runAll vs p

theorem runAll_single (v : Visit) (p : State) : runAll host [v] p = v.run host p := by
  rw [runAll, Option.bind_eq_bind]
  exact Option.bind_fun_some _

theorem runAll_append (vs ws : List Visit) (p : State) :
    runAll host (vs ++ ws) p = (runAll host vs p).bind (runAll host ws) := by
  induction vs generalizing p with
  | nil => rfl
  | cons v vs ih =>
    rw [List.cons_append, runAll, runAll]
    cases v.run host p with
    | none => rfl
    | some p => exact ih p

def lay (table : TypeTable) (l : Layout) : Visit → Layout
  | .declaration decl => l.declare host table decl
  | .assignment asgm => l.subscript asgm.var_name
  | _ => l

theorem runAll_silent {vs : List Visit} (silent : ∀ v ∈ vs, ∀ p, v.run host p = some p) (p : State) :
    runAll host vs p = some p := by
  induction vs with
  | nil => rfl
  | cons v vs ih =>
    rw [runAll, silent v (.head _)]
    exact ih fun w inside => silent w (.tail _ inside)

end Visit

namespace Compiler

variable (host : Host)

mutual

theorem compile_statement_visits (stmt : Node) (c : Compiler) (labels : List Address) :
    Visit.runAll host stmt.visits (c, labels) = (compile_statement host stmt c).map (·, labels) := by
  cases stmt with
  | Declaration decl => exact Visit.runAll_single host _ _
  | Assignment asgm => exact Visit.runAll_single host _ _
  | Expr e => exact Visit.runAll_single host _ _
  | If s e branches tail =>
    rw [Node.visits, Visit.runAll, Visit.run, Option.bind_eq_bind, Option.bind_some, Visit.runAll_append,
      compile_branches_visits branches, compile_statement]
    change _ = ((compile_branches host branches (openIf c)).bind _).map _
    cases compile_branches host branches (openIf c) with
    | none => rfl
    | some c₁ =>
      rw [Option.map_some, Option.bind_some, Option.bind_some, Visit.runAll_append,
        compile_tail_visits tail, Option.bind_eq_bind]
      cases compile_tail host tail c₁ with
      | none => rfl
      | some c₂ => rfl
  | For s e init cond step block =>
    have inits : ∀ v ∈ init.toList.map Visit.init, ∀ p, v.run host p = some p :=
      List.forall_mem_map.mpr fun _ _ _ => rfl
    have steps : ∀ v ∈ step.toList.map Visit.step, ∀ p, v.run host p = some p :=
      List.forall_mem_map.mpr fun _ _ _ => rfl
    rw [Node.visits, Visit.runAll, Visit.run, Option.bind_eq_bind, Option.bind_some, Visit.runAll_append,
      Visit.runAll_silent host inits, Option.bind_some, Visit.runAll_append, Visit.runAll_silent host steps,
      Option.bind_some, Visit.runAll_append, compile_block_visits block, compile_statement]
    exact Option.bind_fun_some _
  | Function => rfl
  | Return => rfl
  | Typedef => rfl

theorem compile_branches_visits (branches : List (Expr × Block)) (c : Compiler) (labels : List Address) :
    Visit.runAll host (Node.visitsBranches branches) (c, labels) =
      (compile_branches host branches c).map (·, labels) := by
  cases branches with
  | nil => rfl
  | cons branch branches =>
    rw [Node.visitsBranches, Visit.runAll_append, compile_block_visits branch.2, compile_branches,
      Option.bind_eq_bind]
    cases compile_block host branch.2 c with
    | none => rfl
    | some c₁ => exact compile_branches_visits branches c₁ labels

theorem compile_tail_visits (tail : Option Block) (c : Compiler) (labels : List Address) :
    Visit.runAll host (Node.visitsTail tail) (c, labels) = (compile_tail host tail c).map (·, labels) := by
  cases tail with
  | none => rfl
  | some block => exact compile_block_visits block c labels

theorem compile_block_visits (block : Block) (c : Compiler) (labels : List Address) :
    Visit.runAll host block.visits (c, labels) = (compile_block host block c).map (·, labels) := by
  cases block with
  | mk s e nodes =>
    rw [Block.visits, Visit.runAll, Visit.run, Option.bind_eq_bind, Option.bind_some, Visit.runAll_append,
      compile_nodes_visits nodes, compile_block]
    exact Option.bind_fun_some _

theorem compile_nodes_visits (nodes : List Node) (c : Compiler) (labels : List Address) :
    Visit.runAll host (Node.visitsAll nodes) (c, labels) = (compile_nodes host nodes c).map (·, labels) := by
  cases nodes with
  | nil => rfl
  | cons stmt nodes =>
    rw [Node.visitsAll, Visit.runAll_append, compile_statement_visits stmt, compile_nodes,
      Option.bind_eq_bind]
    cases compile_statement host stmt c with
    | none => rfl
    | some c₁ => exact compile_nodes_visits nodes c₁ labels

end

end Compiler

namespace Visit

open Compiler

variable {host : Host} {p p' : State} {vs : List Visit} {name : Bytes}

theorem run_layout {v : Visit} (h : v.run host p = some p') :
    p'.1.layout = v.lay host p.1.type_table_ p.1.layout ∧ p'.1.type_table_ = p.1.type_table_ := by
  obtain ⟨c, labels⟩ := p
  cases v with
  | declaration decl =>
    obtain ⟨c', compiled, rfl⟩ := Option.map_eq_some_iff.mp h
    obtain ⟨layout, -, kept⟩ := declaration_effect host compiled
    exact ⟨layout, kept.table⟩
  | assignment asgm =>
    obtain ⟨c', compiled, rfl⟩ := Option.map_eq_some_iff.mp h
    obtain ⟨var, code, -, -, rfl⟩ := assignment_effect host compiled
    exact ⟨rfl, rfl⟩
  | expr e =>
    obtain ⟨c', compiled, rfl⟩ := Option.map_eq_some_iff.mp h
    rw [compile_expr_eq] at compiled
    obtain ⟨code, -, rfl⟩ := Option.map_eq_some_iff.mp compiled
    exact ⟨rfl, rfl⟩
  | jump | label | enter | leave | init | step =>
    cases h
    exact ⟨rfl, rfl⟩

theorem runAll_layout (h : runAll host vs p = some p') :
    p'.1.layout = vs.foldl (lay host p.1.type_table_) p.1.layout ∧ p'.1.type_table_ = p.1.type_table_ := by
  induction vs generalizing p with
  | nil =>
    cases h
    exact ⟨rfl, rfl⟩
  | cons v vs ih =>
    obtain ⟨q, first, rest⟩ := Option.bind_eq_some_iff.mp h
    obtain ⟨layout, table⟩ := run_layout first
    obtain ⟨layout', table'⟩ := ih rest
    rw [table, layout] at layout'
    exact ⟨layout', table'.trans table⟩

def declared (vs : List Visit) : List Declaration :=
  vs.filterMap fun
    | .declaration decl | .init decl => some decl
    | _ => none

end Visit

namespace Layout

variable {host : Host} {table : TypeTable} {l : Layout} {name : Bytes} {var : VarInfo}

theorem emplace_kept {m : Scope} {x : Bytes} {new : VarInfo} (h : m name = some var) :
    m.emplace x new name = some var := by
  cases old : m x with
  | some other =>
    rw [Scope.emplace, old]
    exact h
  | none =>
    have different : name ≠ x := by
      rintro rfl
      cases old.symm.trans h
    simp only [Scope.emplace, old]
    exact (Function.update_of_ne different _ _).trans h

theorem lay_kept (h : l.vars name = some var) (v : Visit) : (v.lay host table l).vars name = some var := by
  cases v with
  | declaration decl =>
    rw [Visit.lay, declare]
    split
    · exact h
    · exact emplace_kept h
  | assignment asgm => exact emplace_kept h
  | expr | jump | label | enter | leave | init | step => exact h

theorem layAll_kept {vs : List Visit} (h : l.vars name = some var) :
    (vs.foldl (Visit.lay host table) l).vars name = some var := by
  induction vs generalizing l with
  | nil => exact h
  | cons v vs ih => exact ih (lay_kept h v)

theorem layAll_undeclared {vs : List Visit} (h : ∀ var, l.vars name = some var → var = .zero)
    (undeclared : ∀ decl ∈ Visit.declared vs, decl.var_name ≠ name) :
    ∀ var, (vs.foldl (Visit.lay host table) l).vars name = some var → var = .zero := by
  induction vs generalizing l with
  | nil => exact h
  | cons v vs ih =>
    cases v with
    | declaration decl =>
      refine ih (fun var found => ?_) fun d inside => undeclared d (.tail _ inside)
      rw [Visit.lay, declare] at found
      split at found
      · exact h var found
      · rcases emplace_cases found with old | ⟨same, -⟩
        · exact h var old
        · exact absurd same.symm (undeclared decl (.head _))
    | assignment asgm =>
      refine ih (fun var found => ?_) undeclared
      rcases emplace_cases found with old | ⟨-, zero⟩
      · exact h var old
      · exact zero
    | init decl => exact ih h fun d inside => undeclared d (.tail _ inside)
    | expr | jump | label | enter | leave | step => exact ih h undeclared

end Layout

namespace Compiler

variable {host : Host} {nodes : List Node} {pre more : List Visit} {asgm : Assignment} {start c : Compiler}
  {p : Visit.State}

structure Comes (host : Host) (nodes : List Node) (start : Compiler) (pre : List Visit) (asgm : Assignment)
    (more : List Visit) (p : Visit.State) : Prop where
  body : Node.visitsAll nodes = pre ++ .assignment asgm :: more
  reached : Visit.runAll host pre (start, []) = some p

/-- The assignment is reported, and what comes after it is compiled as if it were not there. -/
structure Rejected (host : Host) (asgm : Assignment) (more : List Visit) (p p' : Visit.State) : Prop where
  errors : p'.1.errors_ = p.1.errors_ ++ [bytes "var is not defined: " ++ asgm.var_name]
  kept : p'.1.current_func_ = p.1.current_func_
  rest : (Visit.runAll host more p').map (·.1.current_func_) =
    (Visit.runAll host more p).map (·.1.current_func_)

/-- No assignment to an undeclared name is rejected: nothing is reported, and up to the end of the
function the name has an entry without any bytes, whatever is declared. -/
theorem undeclared_accepted {func_name : Bytes}
    (comes : Comes host nodes (start.setCurrentFunc (.new func_name)) pre asgm more p)
    (undeclared : ∀ decl ∈ Visit.declared pre, decl.var_name ≠ asgm.var_name) :
    (¬ ∃ p', (Visit.assignment asgm).run host p = some p' ∧ Rejected host asgm more p p') ∧
    ∀ p', (Visit.assignment asgm).run host p = some p' → p'.1.errors_ = p.1.errors_ ∧
      ∀ vs ws p'', more = vs ++ ws → Visit.runAll host vs p' = some p'' →
        p''.1.current_func_.var_address_map asgm.var_name = some .zero := by
  have silent : ∀ p', (Visit.assignment asgm).run host p = some p' → p'.1.errors_ = p.1.errors_ := by
    intro p' run
    obtain ⟨c', compiled, rfl⟩ := Option.map_eq_some_iff.mp run
    obtain ⟨var, code, -, -, rfl⟩ := assignment_effect host compiled
    rfl
  constructor
  · rintro ⟨p', run, rejected⟩
    have same := rejected.errors.symm.trans (silent p' run)
    exact absurd (List.append_right_eq_self.mp same) (List.cons_ne_nil _ _)
  · intro p' run
    refine ⟨silent p' run, fun vs ws p'' _ rest => ?_⟩
    have before : ∀ var, p.1.layout.vars asgm.var_name = some var → var = .zero := by
      rw [(Visit.runAll_layout comes.reached).1]
      exact Layout.layAll_undeclared nofun undeclared
    have entry : p'.1.layout.vars asgm.var_name = some .zero := by
      rw [(Visit.run_layout run).1]
      change p.1.layout.vars.emplace asgm.var_name .zero asgm.var_name = _
      cases old : p.1.layout.vars asgm.var_name with
      | none =>
        simp only [Scope.emplace, old]
        exact Function.update_self _ _ _
      | some var =>
        simp only [Scope.emplace, old]
        rw [before var old]
    have kept := (Visit.runAll_layout rest).1
    change p''.1.layout.vars asgm.var_name = _
    rw [kept]
    exact Layout.layAll_kept entry

def lateBody : List Node :=
  let number (i : Int) : Expr := .TOKEN .init .init (.CreateInt 1 i)
  [.Assignment ⟨.init, .init, bytes "x", number 1⟩,
    .Declaration ⟨.init, .init, bytes "x", some ⟨.init, .init, false, none, bytes "int"⟩, number 0⟩,
    .Assignment ⟨.init, .init, bytes "x", number 2⟩]

theorem undeclared_accepted_late : ∃ p',
    (Visit.assignment ⟨.init, .init, bytes "x", .TOKEN .init .init (.CreateInt 1 1)⟩).run .plain
      (init.setCurrentFunc (.new (bytes "main")), []) = some p' ∧ p'.1.errors_ = [] ∧
    ∃ p'', Visit.runAll .plain (Node.visitsAll lateBody).tail p' = some p'' ∧
      p''.1.current_func_.var_address_map (bytes "x") = some .zero := by
  have comes : Comes .plain lateBody (init.setCurrentFunc (.new (bytes "main"))) []
      ⟨.init, .init, bytes "x", .TOKEN .init .init (.CreateInt 1 1)⟩ (Node.visitsAll lateBody).tail
      (init.setCurrentFunc (.new (bytes "main")), []) := ⟨rfl, rfl⟩
  obtain ⟨errors, entry⟩ := (undeclared_accepted comes nofun).2 _ rfl
  exact ⟨_, rfl, errors, _, rfl, entry _ [] _ (List.append_nil _).symm rfl⟩

theorem undeclared_unreported :
    Comes .plain lateBody (init.setCurrentFunc (.new (bytes "main"))) []
      ⟨.init, .init, bytes "x", .TOKEN .init .init (.CreateInt 1 1)⟩ (Node.visitsAll lateBody).tail
      (init.setCurrentFunc (.new (bytes "main")), []) ∧
    (¬ ∃ p', (Visit.assignment ⟨.init, .init, bytes "x", .TOKEN .init .init (.CreateInt 1 1)⟩).run .plain
        (init.setCurrentFunc (.new (bytes "main")), []) = some p' ∧
      Rejected .plain ⟨.init, .init, bytes "x", .TOKEN .init .init (.CreateInt 1 1)⟩
        (Node.visitsAll lateBody).tail (init.setCurrentFunc (.new (bytes "main")), []) p') ∧
    (compile_nodes .plain lateBody (init.setCurrentFunc (.new (bytes "main")))).map
        (·.current_func_.instructions.length) = some 2 ∧
    (compile_nodes .plain lateBody.tail (init.setCurrentFunc (.new (bytes "main")))).map
        (·.current_func_.instructions.length) = some 5 := by
  refine ⟨⟨rfl, rfl⟩, ?_, rfl, rfl⟩
  rintro ⟨p', run, rejected⟩
  have silent : ((Visit.assignment ⟨.init, .init, bytes "x", .TOKEN .init .init (.CreateInt 1 1)⟩).run .plain
      (init.setCurrentFunc (.new (bytes "main")), [])).map (·.1.errors_) = some [] := rfl
  rw [run, Option.map_some, rejected.errors] at silent
  exact nomatch silent

end Compiler

end Mygo

import Mygo.Compiler.Types
import Mygo.Compiler.Visits

namespace Mygo

def Root.globals (ast : Root) : List Declaration :=
  ast.nodes.filterMap fun
    | .Declaration decl => some decl
    | _ => none

def Declaration.diagnostic (names : List Bytes) (decl : Declaration) : Option Bytes :=
  decl.var_type.bind fun t => if names.contains t.name_ then none else some (bytes "type is not defined: " ++ t.name_)

def Visit.diagnostic (names : List Bytes) : Visit → Option Bytes
  | .declaration decl => decl.diagnostic names
  | _ => none

def Declaration.global (host : Host) (table : TypeTable) (decl : Declaration) : VarInfo :=
  ⟨decl.var_name, decl.var_type.bind fun t => (table.findByName host t.name_).map (·.type_id), 0, 0⟩

/-- The types, the globals and the functions are those of the source, in its order, and so are the messages: one
for each declaration that is compiled and whose type has no name of the source or of a basic type. -/
structure Tables (host : Host) (ast : Root) (c : Compiler) : Prop where
  types : c.type_table_.map (·.name) = ast.type_names
  globals : c.global_table_ = ast.globals.map (·.global host c.type_table_)
  funcs : c.func_table_.map (·.name) = ast.funcs.map (·.1)
  errors : c.errors_ = (ast.funcs.flatMap (·.2.visits)).filterMap (Visit.diagnostic ast.type_names)

structure Speaks (c c' : Compiler) (messages : List Bytes) : Prop where
  kept : Compiler.Kept c c'
  globals : c'.global_table_ = c.global_table_
  errors : c'.errors_ = c.errors_ ++ messages

namespace Speaks

variable {c c₁ c₂ : Compiler} {messages messages' : List Bytes}

theorem silent (kept : Compiler.Kept c c₁) (globals : c₁.global_table_ = c.global_table_)
    (errors : c₁.errors_ = c.errors_) : Speaks c c₁ [] :=
  ⟨kept, globals, errors.trans (List.append_nil _).symm⟩

theorem trans (h : Speaks c c₁ messages) (h' : Speaks c₁ c₂ messages') : Speaks c c₂ (messages ++ messages') :=
  ⟨h.kept.trans h'.kept, h'.globals.trans h.globals, by rw [h'.errors, h.errors, List.append_assoc]⟩

end Speaks

variable {host : Host} {names : List Bytes} {c c' : Compiler}

open Compiler TypeTable

theorem declaration_speaks {decl : Declaration} (h : Named names c.type_table_)
    (compiled : compile_declaration host decl c = some c') : Speaks c c' (decl.diagnostic names).toList := by
  cases typed : decl.var_type with
  | none => simp only [compile_declaration, typed, reduceCtorEq] at compiled
  | some t =>
    have lookup := h.find host t.name_
    cases found : c.type_table_.findByName host t.name_ with
    | none =>
      rw [found] at lookup
      simp only [compile_declaration, typed, found] at compiled
      cases compiled
      refine ⟨⟨rfl, rfl, rfl, rfl⟩, rfl, ?_⟩
      rw [Declaration.diagnostic, typed, Option.bind_some, ← lookup]
      rfl
    | some s =>
      rw [found] at lookup
      simp only [compile_declaration, typed, found] at compiled
      cases compiled
      refine ⟨⟨rfl, rfl, rfl, rfl⟩, rfl, ?_⟩
      rw [Declaration.diagnostic, typed, Option.bind_some, ← lookup]
      exact (List.append_nil _).symm

theorem visit_speaks {v : Visit} {p p' : Visit.State} (h : Named names p.1.type_table_)
    (ran : v.run host p = some p') : Speaks p.1 p'.1 (v.diagnostic names).toList := by
  obtain ⟨c, labels⟩ := p
  cases v with
  | declaration decl =>
    obtain ⟨c', compiled, rfl⟩ := Option.map_eq_some_iff.mp ran
    exact declaration_speaks h compiled
  | assignment asgm =>
    obtain ⟨c', compiled, rfl⟩ := Option.map_eq_some_iff.mp ran
    obtain ⟨var, code, -, -, rfl⟩ := assignment_effect host compiled
    exact .silent ⟨rfl, rfl, rfl, rfl⟩ rfl rfl
  | expr e =>
    obtain ⟨c', compiled, rfl⟩ := Option.map_eq_some_iff.mp ran
    rw [compile_expr_eq] at compiled
    obtain ⟨code, -, rfl⟩ := Option.map_eq_some_iff.mp compiled
    exact .silent ⟨rfl, rfl, rfl, rfl⟩ rfl rfl
  | jump | label | enter | leave | init | step =>
    cases ran
    exact .silent ⟨rfl, rfl, rfl, rfl⟩ rfl rfl

theorem visits_speak {vs : List Visit} {p p' : Visit.State} (h : Named names p.1.type_table_)
    (ran : Visit.runAll host vs p = some p') : Speaks p.1 p'.1 (vs.filterMap (Visit.diagnostic names)) := by
  induction vs generalizing p with
  | nil =>
    cases ran
    exact .silent ⟨rfl, rfl, rfl, rfl⟩ rfl rfl
  | cons v vs ih =>
    obtain ⟨q, first, rest⟩ := Option.bind_eq_some_iff.mp ran
    have speaks := visit_speaks h first
    have all := speaks.trans (ih (speaks.kept.table ▸ h) rest)
    rw [List.filterMap_cons]
    cases said : v.diagnostic names with
    | none => rwa [said] at all
    | some message => rwa [said] at all

def Root.of (nodes : List Node) : Root := ⟨.init, .init, .mk .init .init nodes⟩

theorem funcs_speak {nodes : List Node} (h : Named names c.type_table_)
    (compiled : compile_funcs host nodes c = some c') :
    c'.type_table_ = c.type_table_ ∧ c'.global_table_ = c.global_table_ ∧
      c'.func_table_.map (·.name) = c.func_table_.map (·.name) ++ (Root.of nodes).funcs.map (·.1) ∧
      c'.errors_ = c.errors_ ++ ((Root.of nodes).funcs.flatMap (·.2.visits)).filterMap (Visit.diagnostic names) := by
  induction nodes generalizing c with
  | nil =>
    cases compiled
    exact ⟨rfl, rfl, (List.append_nil _).symm, (List.append_nil _).symm⟩
  | cons node nodes ih =>
    cases node with
    | Function start end_ func_name args returns block =>
      obtain ⟨c₂, first, rest⟩ := Option.bind_eq_some_iff.mp compiled
      obtain ⟨c₁, body, added⟩ := Option.bind_eq_some_iff.mp first
      cases added
      have visits := compile_block_visits host block (c.setCurrentFunc (.new func_name)) []
      rw [body, Option.map_some] at visits
      have speaks := visits_speak h visits
      obtain ⟨table, globals, funcs, errors⟩ := ih (speaks.kept.table ▸ h) rest
      refine ⟨table.trans speaks.kept.table, globals.trans speaks.globals, ?_, ?_⟩
      · rw [funcs, List.map_append, speaks.kept.funcs, List.append_assoc]
        exact congrArg (fun name => c.func_table_.map (·.name) ++ name :: _) speaks.kept.name
      · have more : (Root.of (.Function start end_ func_name args returns block :: nodes)).funcs =
            (func_name, block) :: (Root.of nodes).funcs := rfl
        rw [errors, speaks.errors, List.append_assoc, more, List.flatMap_cons, List.filterMap_append]
        rfl
    | Declaration | Assignment | Expr | If | Return | For | Typedef => exact ih h compiled

theorem compile_global_eq {nodes : List Node} (h : Named names c.type_table_) :
    compile_global host nodes c =
      if ∀ decl ∈ (Root.of nodes).globals, decl.diagnostic names = none then
        some { c with global_table_ := c.global_table_ ++ (Root.of nodes).globals.map (·.global host c.type_table_) }
      else none := by
  induction nodes generalizing c with
  | nil =>
    have none : (Root.of []).globals = [] := rfl
    simp [compile_global, none]
  | cons node nodes ih =>
    cases node with
    | Declaration decl =>
      have globals : (Root.of (.Declaration decl :: nodes)).globals = decl :: (Root.of nodes).globals := rfl
      rw [globals, compile_global]
      cases typed : decl.var_type with
      | none =>
        have silent : decl.diagnostic names = none := by
          rw [Declaration.diagnostic, typed]
          rfl
        have entry : decl.global host c.type_table_ = ⟨decl.var_name, none, 0, 0⟩ := by
          rw [Declaration.global, typed]
          rfl
        have rest := @ih { c with global_table_ := c.global_table_ ++ [⟨decl.var_name, none, 0, 0⟩] } h
        simpa [silent, entry] using rest
      | some t =>
        have lookup := h.find host t.name_
        cases found : c.type_table_.findByName host t.name_ with
        | none =>
          rw [found] at lookup
          have said : decl.diagnostic names ≠ none := by
            rw [Declaration.diagnostic, typed, Option.bind_some, ← lookup]
            simp
          simp [found, said]
        | some info =>
          rw [found] at lookup
          have silent : decl.diagnostic names = none := by
            rw [Declaration.diagnostic, typed, Option.bind_some, ← lookup]
            rfl
          have entry : decl.global host c.type_table_ = ⟨decl.var_name, some info.type_id, 0, 0⟩ := by
            rw [Declaration.global, typed, Option.bind_some, found]
            rfl
          have rest := @ih { c with global_table_ := c.global_table_ ++ [⟨decl.var_name, some info.type_id, 0, 0⟩] } h
          simpa [silent, entry, found] using rest
    | Function | Assignment | Expr | If | Return | For | Typedef => exact ih h

theorem compile_types_only {nodes : List Node} (compiled : compile_types host nodes c = some c') :
    c' = { c with type_table_ := c'.type_table_ } := by
  induction nodes generalizing c with
  | nil =>
    cases compiled
    rfl
  | cons node nodes ih =>
    cases node with
    | Typedef tf =>
      obtain ⟨c₁, first, rest⟩ := Option.bind_eq_some_iff.mp compiled
      have only : c₁ = { c with type_table_ := c₁.type_table_ } := by
        rw [compile_typedef] at first
        split at first
        · obtain ⟨stct, -, first⟩ := Option.bind_eq_some_iff.mp first
          obtain ⟨info, -, first⟩ := Option.bind_eq_some_iff.mp first
          cases first
          rfl
        · cases first
          rfl
      have later := ih rest
      rw [only] at later
      exact later
    | Declaration | Assignment | Expr | If | Function | Return | For => exact ih compiled

/-- A parsed program is compiled exactly when the types of all fields and globals are known where they stand. -/
theorem Root.tables {src : Bytes} {rounds : Nat} {ast : Root} (host : Host)
    (parsed : (Root.parse rounds (TokenStream.init src)).value = some ast) :
    ((∃ c, compile host ast .init = some c) ↔ undefined_fields basicNames ast.nodes = 0 ∧
      ∀ decl ∈ ast.globals, decl.diagnostic ast.type_names = none) ∧
    ∀ c, compile host ast .init = some c → Tables host ast c := by
  have shaped := shaped_of_parsed parsed
  have few : basicNames.length + ast.nodes.length ≤ 200000 := by
    have count := shaped.count
    have four : basicNames.length = 4 := rfl
    omega
  have basic : Named basicNames Compiler.init.type_table_ := named_basic
  rcases compile_types_cases host basic few shaped.nodes with ⟨fields, c₁, types, named, -⟩ | ⟨fields, crash⟩
  · have only := compile_types_only types
    have globals : compile_global host ast.nodes c₁ =
        if ∀ decl ∈ ast.globals, decl.diagnostic ast.type_names = none then
          some { c₁ with global_table_ := c₁.global_table_ ++ ast.globals.map (·.global host c₁.type_table_) }
        else none :=
      compile_global_eq named
    split at globals
    · next known =>
      obtain ⟨c₂, funcs, -⟩ := compile_funcs_reports host shaped.nodes
        (c := { c₁ with global_table_ := c₁.global_table_ ++ ast.globals.map (·.global host c₁.type_table_) }) named
      have run : compile host ast .init = some c₂.link := by
        simp only [compile, types, globals, funcs, Option.bind_eq_bind, Option.bind_some]
      refine ⟨iff_of_true ⟨_, run⟩ ⟨fields, known⟩, fun c compiled => ?_⟩
      obtain rfl := Option.some.inj (run.symm.trans compiled)
      obtain ⟨table, entries, names, errors⟩ := funcs_speak
        (c := { c₁ with global_table_ := c₁.global_table_ ++ ast.globals.map (·.global host c₁.type_table_) })
        named funcs
      have same : c₂.type_table_ = c₁.type_table_ := table
      rw [only] at entries names errors
      refine ⟨?_, ?_, names, errors⟩
      · exact (congrArg (List.map (·.name)) same).trans named.names
      · rw [show c₂.link.type_table_ = c₁.type_table_ from same]
        exact entries
    · next unknown =>
      have stop : compile host ast .init = none := by
        simp only [compile, types, globals, Option.bind_eq_bind, Option.bind_some, Option.bind_none]
      rw [stop]
      exact ⟨iff_of_false (by simp) fun known => unknown known.2, by simp⟩
  · have stop : compile host ast .init = none := by
      simp only [compile, crash, Option.bind_eq_bind, Option.bind_none]
    rw [stop]
    exact ⟨iff_of_false (by simp) fun known => fields known.1, by simp⟩

theorem Root.tables_sample : ∃ ast c, Compiler.compile .plain ast .init = some c ∧ Tables .plain ast c ∧
    c.global_table_.map (·.type_id) = [some 50] ∧ c.errors_ = [bytes "type is not defined: foo"] := by
  have run : ((Root.parse 20 (TokenStream.init (bytes
      "type int T\nvar g T = 1\nfunc main()\x7b\nvar x foo = 1\n\x7d\n"))).value.any fun ast =>
        (compile .plain ast .init).any fun c =>
          c.global_table_.map (·.type_id) == [some 50] && c.errors_ == [bytes "type is not defined: foo"]) = true := by
    decide +kernel
  simp only [Option.any_eq_true, Bool.and_eq_true, beq_iff_eq] at run
  obtain ⟨ast, parsed, c, compiled, entries, errors⟩ := run
  exact ⟨ast, c, compiled, (tables .plain parsed).2 c compiled, entries, errors⟩

end Mygo

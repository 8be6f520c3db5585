import Mygo.Parser.Print

namespace Mygo

open Parser

namespace Struct

def erase (s : Struct) : Struct := ⟨.init, .init, s.fields_⟩

def printFields : List (Bytes × Bytes) → List Value
  | [] => []
  | field :: fields =>
    Print.symbol field.1 :: Print.symbol field.2 :: Print.token .Enl :: printFields fields

def print (s : Struct) : List Value :=
  Print.token .Struct :: Print.token .LBrace :: Print.token .Enl ::
    (printFields s.fields_ ++ [Print.token .RBrace])

end Struct

namespace VarType

def erase (t : VarType) : VarType := ⟨.init, .init, t.is_struct_, t.stct_.map Struct.erase, t.name_⟩

/-- A type without a struct and without a name is no type. -/
def print (t : VarType) : List Value :=
  match t.stct_ with
  | some stct => stct.print
  | none => if t.name_ = [] then [] else [Print.symbol t.name_]

/-- The types that `VarType::parse` builds, with fewer fields than its loop has rounds. -/
def Printable (t : VarType) : Prop :=
  match t.stct_ with
  | some stct => t.is_struct_ = true ∧ t.name_ = [] ∧ stct.fields_.length < 10000
  | none => t.is_struct_ = false

end VarType

namespace Declaration

def erase (d : Declaration) : Declaration :=
  ⟨.init, .init, d.var_name, d.var_type.map VarType.erase, d.expr.erase⟩

def printType : Option VarType → List Value
  | none => []
  | some t => t.print

def print (d : Declaration) : List Value :=
  Print.token .Var :: Print.symbol d.var_name ::
    (printType d.var_type ++ Print.token .Assign :: d.expr.print)

def Printable (d : Declaration) : Prop :=
  (∃ t, d.var_type = some t ∧ t.Printable) ∧ Expr.Shape (.comparison d.expr)

end Declaration

namespace Assignment

def erase (a : Assignment) : Assignment := ⟨.init, .init, a.var_name, a.expr.erase⟩

def print (a : Assignment) : List Value :=
  Print.symbol a.var_name :: Print.token .Assign :: a.expr.print

def Printable (a : Assignment) : Prop := Expr.Shape (.comparison a.expr)

end Assignment

namespace Return

def erase (r : Return) : Return := ⟨.init, .init, Expr.eraseAll r.ret_exprs⟩

def print (r : Return) : List Value := Print.token .Return :: r.ret_exprs.flatMap Expr.print

/-- At most one expression, which ends where its line does. -/
def Printable (r : Return) : Prop :=
  r.ret_exprs.length ≤ 1 ∧ ∀ e ∈ r.ret_exprs, Expr.Shape (.comparison e)

end Return

namespace Typedef

def erase (t : Typedef) : Typedef := ⟨.init, .init, t.new_name_, t.old_type_.erase⟩

def print (t : Typedef) : List Value :=
  Print.token .Typedef :: (t.old_type_.print ++ [Print.symbol t.new_name_])

def Printable (t : Typedef) : Prop :=
  t.old_type_.Printable ∧ (t.old_type_.is_struct_ = true ∨ t.old_type_.name_ ≠ [])

end Typedef

namespace Function

def printArgs : List (Bytes × Bytes) → List Value
  | [] => []
  | arg :: args =>
    Print.symbol arg.1 :: Print.symbol arg.2 ::
      if args = [] then [] else Print.token .Comma :: printArgs args

end Function

def printOption {α : Type} (print : α → List Value) : Option α → List Value
  | none => []
  | some a => print a

abbrev If.Branch := Expr × Block

namespace Node

mutual

def erase : Node → Node
  | .Declaration decl => .Declaration decl.erase
  | .Assignment asgm => .Assignment asgm.erase
  | .Expr expr => .Expr expr.erase
  | .If _ _ branches tail => .If .init .init (eraseBranches branches) (eraseTail tail)
  | .Function _ _ name args returns block => .Function .init .init name args returns (eraseBlock block)
  | .Return ret => .Return ret.erase
  | .For _ _ decl cond step block =>
    .For .init .init (decl.map Declaration.erase) (cond.map Expr.erase) (step.map Assignment.erase)
      (eraseBlock block)
  | .Typedef tdef => .Typedef tdef.erase

def eraseBlock : Block → Block
  | .mk _ _ nodes => .mk .init .init (eraseNodes nodes)

def eraseNodes : List Node → List Node
  | [] => []
  | node :: nodes => node.erase :: eraseNodes nodes

def eraseBranches : List If.Branch → List If.Branch
  | [] => []
  | (cond, block) :: branches => (cond.erase, eraseBlock block) :: eraseBranches branches

def eraseTail : Option Block → Option Block
  | none => none
  | some block => some (eraseBlock block)

end

mutual

def print : Node → List Value
  | .Declaration decl => decl.print
  | .Assignment asgm => asgm.print
  | .Expr expr => expr.print
  | .If _ _ branches tail => (printBranches branches ++ printTail tail).drop 1
  | .Function _ _ name args returns block =>
    Print.token .Func :: Print.symbol name :: Print.token .LParent ::
      (Function.printArgs args ++ Print.token .RParent ::
        (returns.map Print.symbol ++ printBlock block))
  | .Return ret => ret.print
  | .For _ _ decl cond step block =>
    Print.token .For :: (printOption Declaration.print decl ++ Print.token .Semicolon ::
      (printOption Expr.print cond ++ Print.token .Semicolon ::
        (printOption Assignment.print step ++ printBlock block)))
  | .Typedef tdef => tdef.print

def printBlock : Block → List Value
  | .mk _ _ nodes =>
    Print.token .LBrace :: Print.token .Enl :: (printNodes nodes ++ [Print.token .RBrace])

def printNodes : List Node → List Value
  | [] => []
  | node :: nodes => node.print ++ Print.token .Enl :: printNodes nodes

/-- The branches of an if, each with the `else` before it, also the first. -/
def printBranches : List If.Branch → List Value
  | [] => []
  | (cond, block) :: branches =>
    Print.token .Else :: Print.token .If :: (cond.print ++ (printBlock block ++ printBranches branches))

def printTail : Option Block → List Value
  | none => []
  | some block => Print.token .Else :: printBlock block

end

mutual

/-- The trees that the parser builds, with counts below the limits of its loops. -/
def Printable : Node → Prop
  | .Declaration decl => decl.Printable
  | .Assignment asgm => asgm.Printable
  | .Expr expr => Expr.Shape (.comparison expr)
  | .If _ _ branches tail =>
    branches ≠ [] ∧ branches.length + tail.toList.length ≤ 1000 ∧ PrintableBranches branches ∧
      PrintableTail tail
  | .Function _ _ _ args returns block =>
    args.length ≤ 1000 ∧ returns.length < 99 ∧ PrintableBlock block
  | .Return ret => ret.Printable
  | .For _ _ decl cond step block =>
    (∀ d ∈ decl, d.Printable) ∧ (∀ e ∈ cond, Expr.Shape (.comparison e)) ∧
      (∀ a ∈ step, a.Printable) ∧ PrintableBlock block
  | .Typedef tdef => tdef.Printable

def PrintableBlock : Block → Prop
  | .mk _ _ nodes => nodes.length < 100000 ∧ PrintableNodes nodes

def PrintableNodes : List Node → Prop
  | [] => True
  | node :: nodes => node.Printable ∧ PrintableNodes nodes

def PrintableBranches : List If.Branch → Prop
  | [] => True
  | (cond, block) :: branches =>
    Expr.Shape (.comparison cond) ∧ PrintableBlock block ∧ PrintableBranches branches

def PrintableTail : Option Block → Prop
  | none => True
  | some block => PrintableBlock block

end

end Node

@[simp] theorem symbol_type (s : Bytes) : (Print.symbol s).type_ = .Symbol := by
  cases s <;> rfl

@[simp] theorem symbol_str (s : Bytes) : (Print.symbol s).str_data_ = s := rfl

variable {n : Nat} {u : Value} {us : List Value}

theorem Struct.parse_printed_fields {left : Nat} (fields : List (Bytes × Bytes))
    (limit : fields.length < left) (close : u.type_ = .RBrace) :
    Struct.parse_fields (n + 1) left ⟨printFields fields ++ u :: us⟩ =
      .ok fields (⟨u :: us⟩ : Tokens) := by
  induction fields generalizing left with
  | nil =>
    obtain ⟨left, rfl⟩ : ∃ k, left = k + 1 := ⟨left - 1, by simp at limit; omega⟩
    rw [printFields, List.nil_append, parse_fields, bind_ok peeked_cons, if_neg (by simp [close])]
    rfl
  | cons field fields ih =>
    obtain ⟨left, rfl⟩ : ∃ k, left = k + 1 := ⟨left - 1, by simp at limit; omega⟩
    have rest := @ih left (by simp at limit; omega)
    obtain ⟨v, vs, head, other⟩ : ∃ v vs, printFields fields ++ u :: us = v :: vs ∧ v.type_ ≠ .Enl := by
      cases fields with
      | nil => exact ⟨u, us, rfl, by simp [close]⟩
      | cons field fields => exact ⟨_, _, rfl, by simp⟩
    simp only [printFields, List.cons_append]
    rw [head] at rest ⊢
    rw [parse_fields]
    simp (disch := first | assumption | simp) [run_bind, next_cons, expect_token_ok, skip_token_stop, rest]

theorem Struct.parse_printed (n : Nat) (u : Value) (us : List Value) (stct : Struct)
    (limit : stct.fields_.length < 10000) :
    Struct.parse (n + 2) ⟨stct.print ++ u :: us⟩ = .ok stct.erase (⟨u :: us⟩ : Tokens) := by
  obtain ⟨v, vs, head, other⟩ : ∃ v vs,
      printFields stct.fields_ ++ Print.token .RBrace :: u :: us = v :: vs ∧ v.type_ ≠ .Enl := by
    cases stct.fields_ with
    | nil => exact ⟨_, _, rfl, by simp⟩
    | cons field fields => exact ⟨_, _, rfl, by simp⟩
  have fields : Struct.parse_fields (n + 2) 10000 ⟨v :: vs⟩ = .ok _ (⟨_ :: u :: us⟩ : Tokens) :=
    head ▸ parse_printed_fields stct.fields_ limit rfl
  simp only [print, List.cons_append, List.append_assoc, List.nil_append]
  rw [head]
  apply guard_ok
  simp (disch := first | assumption | simp) [run_bind, expect_token_ok, skip_token_cons,
    skip_token_stop, fields, erase]

theorem VarType.parse_printed (n : Nat) (u : Value) (us : List Value) {t : VarType}
    (printable : t.Printable)
    (next_type : t.is_struct_ = true ∨ t.name_ ≠ [] ∨ u.type_ = .Assign) :
    VarType.parse (n + 2) ⟨t.print ++ u :: us⟩ = .ok t.erase (⟨u :: us⟩ : Tokens) := by
  obtain ⟨start, end_, is_struct, stct, name⟩ := t
  cases stct with
  | some stct =>
    obtain ⟨rfl, rfl, limit⟩ := printable
    have parsed := attempt_ok (Struct.parse_printed n u us stct limit)
    simp [VarType.parse, run_bind, print, erase, parsed]
  | none =>
    simp only [Printable] at printable
    subst printable
    by_cases empty : name = []
    · subst empty
      have assign : u.type_ = .Assign := by simpa using next_type
      obtain ⟨e, refused, -⟩ : Refuses (Struct.parse (n + 2)) ⟨u :: us⟩ :=
        Struct.refuses (by simp [assign])
      simp [VarType.parse, run_bind, print, erase, attempt_err refused, assign, Parser.modify,
        Stream.Load]
    · obtain ⟨e, refused, -⟩ : Refuses (Struct.parse (n + 2)) ⟨Print.symbol name :: u :: us⟩ :=
        Struct.refuses (by simp)
      simp [VarType.parse, run_bind, print, erase, attempt_err refused, empty, next_cons]

theorem Declaration.parse_printed {d : Declaration} (printable : d.Printable)
    (bound : d.print.length ≤ n) (stop : Expr.ends_comparison u.type_ = true) :
    Declaration.parse (n + 1) ⟨d.print ++ u :: us⟩ = .ok d.erase (⟨u :: us⟩ : Tokens) := by
  obtain ⟨⟨t, has_type, type_printable⟩, shape⟩ := printable
  simp only [print, has_type, printType, List.length_cons, List.length_append] at bound
  obtain ⟨m, rfl⟩ : ∃ m, n = m + 1 := ⟨n - 1, by omega⟩
  have typed := attempt_ok (VarType.parse_printed m (Print.token .Assign) (d.expr.print ++ u :: us)
    type_printable (.inr (.inr (by simp))))
  have parsed := attempt_ok (shape.parses (m + 1) u us (by omega) stop)
  simp only [print, has_type, printType, List.cons_append, List.append_assoc]
  apply guard_ok
  simp [run_bind, expect_token_ok, expect_token_fatal_ok, typed, parsed, erase, has_type, Except.toOption]

theorem Assignment.parse_printed {a : Assignment} (printable : a.Printable)
    (bound : a.print.length ≤ n) (stop : Expr.ends_comparison u.type_ = true) :
    Assignment.parse (n + 1) ⟨a.print ++ u :: us⟩ = .ok a.erase (⟨u :: us⟩ : Tokens) := by
  simp only [print, List.length_cons] at bound
  have parsed := attempt_ok (printable.parses n u us (by omega) stop)
  simp only [print, List.cons_append]
  apply guard_ok
  simp [run_bind, expect_token_ok, parsed, erase]

theorem Return.parse_printed_exprs {left : Nat} {es : List Expr} (one : es.length ≤ 1)
    (shape : ∀ e ∈ es, Expr.Shape (.comparison e)) (bound : (es.flatMap Expr.print).length ≤ n)
    (line : u.type_ = .Enl) :
    parse_exprs (n + 1) (left + 2) ⟨es.flatMap Expr.print ++ u :: us⟩ =
      .ok (Expr.eraseAll es) (⟨u :: us⟩ : Tokens) := by
  obtain ⟨e, refused, -⟩ : Refuses (Expr.parse (n + 1)) ⟨u :: us⟩ :=
    Expr.refuses (by rw [line]; rfl)
  have stop := attempt_err refused
  cases es with
  | nil => simp [run_bind, parse_exprs, stop, Expr.eraseAll]
  | cons e es =>
    cases es with
    | nil =>
      simp only [List.flatMap_cons, List.flatMap_nil, List.append_nil] at bound ⊢
      have parsed := attempt_ok
        ((shape e List.mem_cons_self).parses n u us bound (by rw [line]; rfl))
      simp [run_bind, parse_exprs, parsed, stop, Expr.eraseAll]
    | cons e' es => simp at one

theorem Return.parse_printed {r : Return} (printable : r.Printable) (bound : r.print.length ≤ n)
    (line : u.type_ = .Enl) :
    Return.parse (n + 1) ⟨r.print ++ u :: us⟩ = .ok r.erase (⟨u :: us⟩ : Tokens) := by
  simp only [print, List.length_cons] at bound
  have exprs : Return.parse_exprs (n + 1) 100 _ = .ok _ (⟨u :: us⟩ : Tokens) :=
    parse_printed_exprs printable.1 printable.2 (by omega) line
  simp only [print, List.cons_append]
  apply guard_ok
  simp [run_bind, expect_token_ok, exprs, erase]

theorem Typedef.parse_printed {t : Typedef} (printable : t.Printable) :
    Typedef.parse (n + 2) ⟨t.print ++ u :: us⟩ = .ok t.erase (⟨u :: us⟩ : Tokens) := by
  obtain ⟨typed, kind⟩ := printable
  have parsed := attempt_ok (VarType.parse_printed n (Print.symbol t.new_name_) (u :: us) typed
    (kind.imp_right .inl))
  simp only [print, List.cons_append, List.append_assoc, List.nil_append]
  apply guard_ok
  simp [run_bind, expect_token_ok, parsed, next_cons, erase]

namespace Function

theorem parse_printed_args {left : Nat} (args : List (Bytes × Bytes)) (limit : args.length ≤ left)
    (close : u.type_ = .RParent) :
    parse_args left ⟨printArgs args ++ u :: us⟩ = .ok args (⟨u :: us⟩ : Tokens) := by
  induction args generalizing left with
  | nil =>
    cases left with
    | zero => rfl
    | succ left => simp [printArgs, parse_args, run_bind, close]
  | cons arg args ih =>
    cases left with
    | zero => simp at limit
    | succ left =>
      have rest := @ih left (by simpa using limit)
      cases args with
      | nil =>
        simp only [printArgs, List.nil_append] at rest
        simp [printArgs, parse_args, run_bind, expect_token_fatal_ok, skip_token_once, close, rest]
      | cons arg' args =>
        simp [printArgs, parse_args, run_bind, expect_token_fatal_ok, skip_token_once, next_cons] at rest ⊢
        simp [rest]

theorem parse_printed_returns {left : Nat} (returns : List Bytes) (limit : returns.length < left)
    (close : u.type_ = .LBrace) :
    parse_returns left ⟨returns.map Print.symbol ++ u :: us⟩ = .ok returns (⟨u :: us⟩ : Tokens) := by
  induction returns generalizing left with
  | nil =>
    obtain ⟨left, rfl⟩ : ∃ k, left = k + 1 := ⟨left - 1, by simp at limit; omega⟩
    simp [parse_returns, run_bind, close]
  | cons name returns ih =>
    obtain ⟨left, rfl⟩ : ∃ k, left = k + 1 := ⟨left - 1, by simp at limit; omega⟩
    have rest := @ih left (by simpa using limit)
    simp [parse_returns, run_bind, next_cons, rest]

end Function

end Mygo

import Mygo.Compiler.Arith
import Mygo.Compiler.Types

namespace Mygo

structure Marked where
  ins : Instruction
  number : InsType

abbrev SlotTypes := Address → Option InsType

namespace Marked

def write (t : SlotTypes) (m : Marked) : SlotTypes :=
  match m.ins.op with
  | .Set32 => Function.update t m.ins.arg0 (some m.number)
  | .case1 _ ty | .case2 _ ty => Function.update t m.ins.arg0 (some ty)
  | .toI32 _ => Function.update t m.ins.arg0 (some .I32)
  | .toF32 _ => Function.update t m.ins.arg0 (some .F32)
  | _ => t

/-- An arithmetic instruction finds its own type in the slots it reads, and in itself. -/
def Agrees (t : SlotTypes) (m : Marked) : Prop :=
  match m.ins.op with
  | .case1 _ ty => t m.ins.arg1 = some ty ∧ t m.ins.arg2 = some ty
  | .case2 _ ty => t m.ins.arg0 = some ty ∧ m.number = ty
  | _ => True

def AgreeAll : SlotTypes → List Marked → Prop
  | _, [] => True
  | t, m :: ms => m.Agrees t ∧ AgreeAll (m.write t) ms

theorem agreeAll_append {t : SlotTypes} {ms ms' : List Marked} :
    AgreeAll t (ms ++ ms') ↔ AgreeAll t ms ∧ AgreeAll (ms.foldl write t) ms' := by
  induction ms generalizing t with
  | nil => exact ⟨fun h => ⟨trivial, h⟩, And.right⟩
  | cons m ms ih => simp only [List.cons_append, AgreeAll, List.foldl_cons, ih, and_assoc]

end Marked

namespace Expr

mutual

def Numeric : Expr → Prop
  | .TOKEN _ _ v => v.type_ = .Int ∨ v.type_ = .Float
  | .OPS _ _ ops exprs =>
    ((exprs.length = ops.length + 1 ∧ ops ≠ [] ∧ ∀ t ∈ ops, Compiler.IsArith t) ∨
      ops = [.Sub] ∧ exprs.length = 1) ∧ NumericAll exprs
  | .FUNCALL _ _ _ => False

def NumericAll : List Expr → Prop
  | [] => True
  | e :: es => Numeric e ∧ NumericAll es

end

mutual

def HasFloat : Expr → Prop
  | .TOKEN _ _ v => v.type_ = .Float
  | .OPS _ _ _ exprs => SomeFloat exprs
  | .FUNCALL _ _ exprs => SomeFloat exprs

def SomeFloat : List Expr → Prop
  | [] => False
  | e :: es => HasFloat e ∨ SomeFloat es

end

def IsToken : Expr → Prop
  | .TOKEN _ _ _ => True
  | .OPS _ _ _ _ | .FUNCALL _ _ _ => False

mutual

theorem Numeric.shaped (e : Expr) (h : e.Numeric) : e.Shaped := by
  cases e with
  | TOKEN => trivial
  | OPS start end_ ops exprs => exact ⟨h.1.imp_left And.left, NumericAll.shaped exprs h.2⟩
  | FUNCALL => exact h.elim

theorem NumericAll.shaped (es : List Expr) (h : NumericAll es) : ShapedAll es := by
  cases es with
  | nil => trivial
  | cons e es => exact ⟨Numeric.shaped e h.1, NumericAll.shaped es h.2⟩

end

end Expr

namespace Compiler

variable (host : Host)

def literatureMarked (v : Value) (k : Int) : List Marked :=
  (literatureCode host v k).map fun i => ⟨i, if v.type_ = .Float then .F32 else .I32⟩

def opMarked (origin top : Int) (t : TokenType) : List Marked :=
  (opInst origin top t).map fun i => ⟨i, .I32⟩

mutual

def exprMarked : Expr → Int → Option (List Marked)
  | .FUNCALL _ _ _, _ => none
  | .TOKEN _ _ v, k => some (literatureMarked host v k)
  | .OPS _ _ ops exprs, k => opsMarked ops exprs k

def opsMarked (ops : List TokenType) : List Expr → Int → Option (List Marked)
  | [], _ => none
  | e :: es, k => do
    let code ← exprMarked e k
    if ops = [.Sub] ∧ es = [] then
      some (code ++ [⟨⟨.MulI32D, stackTop k, i32u64 (-1), stackTop k⟩, .I32⟩])
    else do
      let rest ← chainMarked k (i32 (k + 4)) ops es
      some (code ++ rest)

def chainMarked (origin top : Int) : List TokenType → List Expr → Option (List Marked)
  | [], _ => some []
  | _ :: _, [] => none
  | t :: ops, e :: es => do
    let code ← exprMarked e top
    let rest ← chainMarked origin top ops es
    some (code ++ opMarked origin top t ++ rest)

end

variable {host}

mutual

theorem exprMarked_code (e : Expr) (numeric : e.Numeric) (k : Int) :
    exprCode host e k = (exprMarked host e k).map (·.map Marked.ins) := by
  cases e with
  | TOKEN start end_ v =>
    simp only [exprCode, exprMarked, literatureMarked, Option.map_some, List.map_map]
    exact congrArg some (List.map_id _).symm
  | OPS start end_ ops exprs => exact opsMarked_code ops exprs numeric.2 k
  | FUNCALL => exact numeric.elim

theorem opsMarked_code (ops : List TokenType) (exprs : List Expr) (numeric : Expr.NumericAll exprs) (k : Int) :
    opsCode host ops exprs k = (opsMarked host ops exprs k).map (·.map Marked.ins) := by
  cases exprs with
  | nil => rfl
  | cons e es =>
    rw [opsCode, opsMarked, exprMarked_code e numeric.1]
    cases exprMarked host e k with
    | none => rfl
    | some code =>
      simp only [Option.map_some, Option.bind_eq_bind, Option.bind_some]
      split
      · simp only [Option.map_some, List.map_append, List.map_singleton]
      · rw [chainMarked_code ops es numeric.2]
        cases chainMarked host k (i32 (k + 4)) ops es with
        | none => rfl
        | some rest => simp only [Option.map_some, Option.bind_some, List.map_append]

theorem chainMarked_code (ops : List TokenType) (es : List Expr) (numeric : Expr.NumericAll es)
    (origin top : Int) :
    chainCode host origin top ops es = (chainMarked host origin top ops es).map (·.map Marked.ins) := by
  cases ops with
  | nil => rw [chainCode, chainMarked]; rfl
  | cons t ops =>
    cases es with
    | nil => rfl
    | cons e es =>
      rw [chainCode, chainMarked, exprMarked_code e numeric.1, chainMarked_code ops es numeric.2]
      have op : (opMarked origin top t).map Marked.ins = opInst origin top t := by
        rw [opMarked, List.map_map]
        exact List.map_id _
      cases exprMarked host e top with
      | none => rfl
      | some code =>
        cases chainMarked host origin top ops es with
        | none => rfl
        | some rest =>
          simp only [Option.map_some, Option.bind_eq_bind, Option.bind_some, List.map_append, op]

end

variable {ms ms' : List Marked} {t : SlotTypes}

/-- The code agrees with the types it finds, and turns no slot of integers into another one. -/
structure Integral (t : SlotTypes) (ms : List Marked) : Prop where
  agree : Marked.AgreeAll t ms
  kept : ∀ a, t a = some .I32 → ms.foldl Marked.write t a = some .I32

theorem Integral.append (h : Integral t ms) (h' : Integral (ms.foldl Marked.write t) ms') :
    Integral t (ms ++ ms') where
  agree := Marked.agreeAll_append.mpr ⟨h.agree, h'.agree⟩
  kept a int := by
    rw [List.foldl_append]
    exact h'.kept a (h.kept a int)

theorem Integral.single {m : Marked} {b : Address} (agrees : m.Agrees t)
    (write : m.write t = Function.update t b (some .I32)) : Integral t [m] where
  agree := ⟨agrees, trivial⟩
  kept a int := by
    rw [List.foldl_cons, List.foldl_nil, write]
    by_cases same : a = b
    · rw [same]
      exact Function.update_self _ _ _
    · rwa [Function.update_of_ne same]

theorem integral_op {op : TokenType} (arith : IsArith op) {origin top : Int}
    (left : t (stackTop origin) = some .I32) (right : t (stackTop top) = some .I32) :
    Integral t (opMarked origin top op) := by
  rcases arith with rfl | rfl | rfl | rfl <;> exact .single ⟨right, left⟩ rfl

theorem opMarked_result {op : TokenType} (arith : IsArith op) (origin top : Int) (t : SlotTypes) :
    (opMarked origin top op).foldl Marked.write t (stackTop origin) = some .I32 := by
  rcases arith with rfl | rfl | rfl | rfl <;> exact Function.update_self _ _ _

theorem numeric_arith {ops : List TokenType} {e : Expr} {es : List Expr}
    (shape : ((e :: es).length = ops.length + 1 ∧ ops ≠ [] ∧ ∀ t ∈ ops, IsArith t) ∨
      ops = [.Sub] ∧ (e :: es).length = 1) (chain : ¬ (ops = [.Sub] ∧ es = [])) :
    es.length = ops.length ∧ ops ≠ [] ∧ ∀ t ∈ ops, IsArith t := by
  rcases shape with ⟨count, some, arith⟩ | ⟨minus, one⟩
  · exact ⟨Nat.succ.inj count, some, arith⟩
  · exact absurd ⟨minus, List.length_eq_zero_iff.mp (Nat.succ.inj one)⟩ chain

mutual

theorem integral_expr (e : Expr) (numeric : e.Numeric) (ints : ¬ e.HasFloat) {k : Int}
    {ms : List Marked} (h : exprMarked host e k = some ms) (t : SlotTypes) :
    Integral t ms ∧ ms.foldl Marked.write t (stackTop k) = some .I32 := by
  cases e with
  | TOKEN start end_ v =>
    have int : v.type_ = .Int := numeric.resolve_right ints
    simp only [exprMarked, literatureMarked, literatureCode, int, List.map_singleton] at h
    cases h
    exact ⟨.single trivial rfl, Function.update_self _ _ _⟩
  | OPS start end_ ops exprs => exact integral_ops ops exprs numeric.1 numeric.2 ints h t
  | FUNCALL => exact numeric.elim

theorem integral_ops (ops : List TokenType) (exprs : List Expr)
    (shape : (exprs.length = ops.length + 1 ∧ ops ≠ [] ∧ ∀ t ∈ ops, IsArith t) ∨
      ops = [.Sub] ∧ exprs.length = 1) (numeric : Expr.NumericAll exprs)
    (ints : ¬ Expr.SomeFloat exprs) {k : Int} {ms : List Marked} (h : opsMarked host ops exprs k = some ms)
    (t : SlotTypes) :
    Integral t ms ∧ ms.foldl Marked.write t (stackTop k) = some .I32 := by
  cases exprs with
  | nil => cases h
  | cons e es =>
    obtain ⟨int, ints⟩ := not_or.mp ints
    obtain ⟨code, first, rest⟩ := Option.bind_eq_some_iff.mp h
    obtain ⟨integral, result⟩ := integral_expr e numeric.1 int first t
    split at rest
    · cases rest
      refine ⟨integral.append (.single ⟨result, rfl⟩ rfl), ?_⟩
      rw [List.foldl_append]
      exact Function.update_self _ _ _
    · next chain =>
      obtain ⟨count, -, arith⟩ := numeric_arith shape chain
      obtain ⟨more, second, rest⟩ := Option.bind_eq_some_iff.mp rest
      cases rest
      have tail := integral_chain ops es arith numeric.2 ints second (code.foldl Marked.write t) result
      refine ⟨integral.append tail, ?_⟩
      rw [List.foldl_append]
      exact tail.kept _ result

theorem integral_chain (ops : List TokenType) (es : List Expr) (arith : ∀ t ∈ ops, IsArith t)
    (numeric : Expr.NumericAll es) (ints : ¬ Expr.SomeFloat es) {origin top : Int}
    {ms : List Marked} (h : chainMarked host origin top ops es = some ms) (t : SlotTypes)
    (acc : t (stackTop origin) = some .I32) :
    Integral t ms := by
  cases ops with
  | nil =>
    rw [chainMarked] at h
    cases h
    exact ⟨trivial, fun _ => id⟩
  | cons op ops =>
    cases es with
    | nil => cases h
    | cons e es =>
      obtain ⟨int, ints⟩ := not_or.mp ints
      obtain ⟨code, first, rest⟩ := Option.bind_eq_some_iff.mp h
      obtain ⟨more, second, rest⟩ := Option.bind_eq_some_iff.mp rest
      cases rest
      obtain ⟨integral, result⟩ := integral_expr e numeric.1 int first t
      have step := integral.append (integral_op (arith op (.head _)) (integral.kept _ acc) result)
      exact step.append (integral_chain ops es (fun t inside => arith t (.tail _ inside)) numeric.2 ints second _
        (step.kept _ acc))

end

theorem chainMarked_result {ops : List TokenType} {es : List Expr} {origin top : Int}
    (some : ops ≠ []) (arith : ∀ t ∈ ops, IsArith t)
    (h : chainMarked host origin top ops es = Option.some ms) (t : SlotTypes) :
    ms.foldl Marked.write t (stackTop origin) = Option.some .I32 := by
  induction ops generalizing es ms t with
  | nil => exact absurd rfl some
  | cons op ops ih =>
    cases es with
    | nil => cases h
    | cons e es =>
      obtain ⟨code, first, rest⟩ := Option.bind_eq_some_iff.mp h
      obtain ⟨more, second, rest⟩ := Option.bind_eq_some_iff.mp rest
      cases rest
      rw [List.foldl_append, List.foldl_append]
      cases ops with
      | nil =>
        rw [chainMarked] at second
        cases second
        exact opMarked_result (arith op (.head _)) origin top _
      | cons op' ops =>
        exact ih (List.cons_ne_nil _ _) (fun t inside => arith t (.tail _ inside)) second _

theorem opsMarked_result {start end_ : Loc} {ops : List TokenType} {exprs : List Expr} {k : Int}
    (numeric : (Expr.OPS start end_ ops exprs).Numeric)
    (h : exprMarked host (.OPS start end_ ops exprs) k = some ms) (t : SlotTypes) :
    ms.foldl Marked.write t (stackTop k) = some .I32 := by
  cases exprs with
  | nil => cases h
  | cons e es =>
    obtain ⟨code, first, rest⟩ := Option.bind_eq_some_iff.mp h
    split at rest
    · cases rest
      rw [List.foldl_append]
      exact Function.update_self _ _ _
    · next chain =>
      obtain ⟨-, some, arith⟩ := numeric_arith numeric.1 chain
      obtain ⟨more, second, rest⟩ := Option.bind_eq_some_iff.mp rest
      cases rest
      rw [List.foldl_append]
      exact chainMarked_result some arith second _

/-- The emitted arithmetic matches the types of its operands, and the result is a float exactly
where there is one among the leaves. -/
def MatchesTypes (host : Host) (e : Expr) (c : Compiler) : Prop :=
  ∃ ms, exprMarked host e c.top = some ms ∧ compile_expr host e c = some (c.emit (ms.map Marked.ins)) ∧
    Marked.AgreeAll (fun _ => none) ms ∧
    (ms.foldl Marked.write (fun _ => none) (stackTop c.top) = some .F32 ↔ e.HasFloat)

/-- All arithmetic is emitted for integers, so that there must be no floats but a single literal. -/
theorem matchesTypes_iff {e : Expr} (numeric : e.Numeric) (c : Compiler) :
    MatchesTypes host e c ↔ e.IsToken ∨ ¬ e.HasFloat := by
  obtain ⟨code, found⟩ := @exprCode_shaped host e numeric.shaped c.top
  have marked := found.symm.trans (exprMarked_code e numeric c.top)
  obtain ⟨ms, h, rfl⟩ := Option.map_eq_some_iff.mp marked.symm
  have compiled : compile_expr host e c = some (c.emit (ms.map Marked.ins)) := by
    rw [compile_expr_eq, found]
    rfl
  constructor
  · rintro ⟨ms', h', -, -, result⟩
    cases h.symm.trans h'
    cases e with
    | TOKEN => exact .inl trivial
    | OPS start end_ ops exprs =>
      refine .inr fun float => ?_
      exact nomatch (opsMarked_result numeric h _).symm.trans (result.mpr float)
    | FUNCALL => exact numeric.elim
  · intro condition
    refine ⟨ms, h, compiled, ?_⟩
    by_cases float : e.HasFloat
    · cases e with
      | TOKEN start end_ v =>
        have type : v.type_ = .Float := float
        simp only [exprMarked, literatureMarked, literatureCode, type, List.map_singleton, if_true] at h
        cases h
        have result : ∀ t : SlotTypes, List.foldl Marked.write t
            [⟨⟨.Set32, stackTop c.top, f32u64 host v.f_data_, 0⟩, .F32⟩] (stackTop c.top) = some .F32 :=
          fun t => Function.update_self _ _ _
        exact ⟨⟨trivial, trivial⟩, fun _ => float, fun _ => result _⟩
      | OPS => exact absurd float (condition.resolve_left id)
      | FUNCALL => exact numeric.elim
    · obtain ⟨integral, result⟩ := integral_expr e numeric float h fun _ => none
      refine ⟨integral.agree, fun is_float => ?_, fun has => absurd has float⟩
      exact nomatch result.symm.trans is_float

theorem matchesTypes_sum :
    MatchesTypes .plain (.OPS .init .init [.Plus]
      [.TOKEN .init .init (.CreateInt 1 1), .TOKEN .init .init (.CreateInt 1 2)]) .init := by
  have numeric : (Expr.OPS .init .init [.Plus]
      [.TOKEN .init .init (.CreateInt 1 1), .TOKEN .init .init (.CreateInt 1 2)]).Numeric :=
    ⟨.inl ⟨rfl, List.cons_ne_nil _ _, List.forall_mem_singleton.mpr (.inl rfl)⟩, .inl rfl, .inl rfl, trivial⟩
  refine (matchesTypes_iff numeric .init).mpr (.inr ?_)
  rintro (float | float | none)
  · cases float
  · cases float
  · exact none

def negatedFloat : Expr := .OPS .init .init [.Sub] [.TOKEN .init .init (.CreateFloat 3 ⟨1, 5, 1⟩)]

/-- The float is multiplied as an integer. -/
theorem negated_float_mismatched : negatedFloat.Numeric ∧ ¬ MatchesTypes .plain negatedFloat .init := by
  have numeric : negatedFloat.Numeric := ⟨.inr ⟨rfl, rfl⟩, .inr rfl, trivial⟩
  refine ⟨numeric, ?_⟩
  rintro ⟨ms, marked, -, agree, -⟩
  cases marked
  have found : some InsType.F32 = some InsType.I32 := agree.2.1.1
  cases found

end Compiler

end Mygo

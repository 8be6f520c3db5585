import Mygo.Parser.Sequence

namespace Mygo

def Value.erase (v : Value) : Value := { v with start := .init, end_ := .init }

namespace Print

def token (t : TokenType) : Value := .make t (if t = .Enl then 1 else t.spelling.length)

def symbol (s : Bytes) : Value := .CreateSymbol s.length s

end Print

open Print Parser

namespace Expr

mutual

def erase : Expr → Expr
  | .TOKEN _ _ v => .TOKEN .init .init v.erase
  | .OPS _ _ ops exprs => .OPS .init .init ops (eraseAll exprs)
  | .FUNCALL _ _ exprs => .FUNCALL .init .init (eraseAll exprs)

def eraseAll : List Expr → List Expr
  | [] => []
  | e :: es => e.erase :: eraseAll es

end

mutual

def print : Expr → List Value
  | .TOKEN _ _ v => [v.erase]
  | .OPS _ _ ops exprs => printOps ops exprs
  | .FUNCALL _ _ exprs => printCall exprs

/-- A chain has one operator less than operands; otherwise the operator comes first. -/
def printOps : List TokenType → List Expr → List Value
  | _, [] => []
  | ops, e :: es =>
    if ops.length = es.length then e.print ++ printRest ops es else ops.map token ++ e.print

def printRest : List TokenType → List Expr → List Value
  | op :: ops, e :: es => token op :: (e.print ++ printRest ops es)
  | _, _ => []

def printCall : List Expr → List Value
  | [] => []
  | f :: args => f.print ++ token .LParent :: (printArgs args ++ [token .RParent])

def printArgs : List Expr → List Value
  | [] => []
  | e :: es => e.print ++ if es = [] then [] else token .Comma :: printArgs es

end

inductive Part
  | atom (e : Expr)
  | product (e : Expr)
  | factors (ops : List TokenType) (es : List Expr)
  | sum (e : Expr)
  | summands (ops : List TokenType) (es : List Expr)
  | comparison (e : Expr)
  | args (es : List Expr)

/-- The trees that `Expr::parse` builds. -/
inductive Shape : Part → Prop
  | token {v : Value} : is_atomic v.type_ = true → Shape (.atom (.TOKEN l r v))
  | minus {v : Value} : is_atomic v.type_ = true → Shape (.atom (.OPS l r [.Sub] [.TOKEN l' r' v]))
  | call {v : Value} : is_atomic v.type_ = true → Shape (.args es) →
    Shape (.atom (.FUNCALL l r (.TOKEN l' r' v :: es)))
  | product : Shape (.atom e) → Shape (.product e)
  | star : Shape (.atom e) → Shape (.factors ops es) → ops ≠ [] →
    Shape (.product (.OPS l r ops (e :: es)))
  | factors_nil : Shape (.factors [] [])
  | factors_cons : is_star op = true → Shape (.atom e) → Shape (.factors ops es) →
    Shape (.factors (op :: ops) (e :: es))
  | sum : Shape (.product e) → Shape (.sum e)
  | plus : Shape (.product e) → Shape (.summands ops es) → ops ≠ [] →
    Shape (.sum (.OPS l r ops (e :: es)))
  | summands_nil : Shape (.summands [] [])
  | summands_cons : is_plus op = true → Shape (.product e) → Shape (.summands ops es) →
    Shape (.summands (op :: ops) (e :: es))
  | comparison : Shape (.sum e) → Shape (.comparison e)
  | greater : is_greater op = true → Shape (.sum a) → Shape (.sum b) →
    Shape (.comparison (.OPS l r [op] [a, b]))
  | args_nil : Shape (.args [])
  | args_cons : Shape (.comparison e) → Shape (.args es) → Shape (.args (e :: es))

def ends (t : TokenType) : Bool := t ≠ .LParent

def ends_product (t : TokenType) : Bool := ends t && !is_star t

def ends_sum (t : TokenType) : Bool := ends_product t && !is_plus t

def ends_comparison (t : TokenType) : Bool := ends_sum t && !is_greater t

def Part.Parses : Part → Prop
  | .atom e => ∀ n t ts, e.print.length ≤ n → ends t.type_ = true →
    parse_atomic (parse n) n ⟨e.print ++ t :: ts⟩ = .ok e.erase (⟨t :: ts⟩ : Tokens)
  | .product e => ∀ n t ts, e.print.length ≤ n → ends_product t.type_ = true →
    parse_with_star (parse n) n ⟨e.print ++ t :: ts⟩ = .ok e.erase (⟨t :: ts⟩ : Tokens)
  | .factors ops es => ∀ msg n k t ts, (printRest ops es).length ≤ n → ops.length < k →
    ends_product t.type_ = true →
    parse_operators is_star (parse_atomic (parse n) n) msg k ⟨printRest ops es ++ t :: ts⟩ =
      .ok (ops, eraseAll es) (⟨t :: ts⟩ : Tokens)
  | .sum e => ∀ n t ts, e.print.length ≤ n → ends_sum t.type_ = true →
    parse_with_plus (parse n) n ⟨e.print ++ t :: ts⟩ = .ok e.erase (⟨t :: ts⟩ : Tokens)
  | .summands ops es => ∀ msg n k t ts, (printRest ops es).length ≤ n → ops.length < k →
    ends_sum t.type_ = true →
    parse_operators is_plus (parse_with_star (parse n) n) msg k ⟨printRest ops es ++ t :: ts⟩ =
      .ok (ops, eraseAll es) (⟨t :: ts⟩ : Tokens)
  | .comparison e => ∀ n t ts, e.print.length ≤ n → ends_comparison t.type_ = true →
    parse (n + 1) ⟨e.print ++ t :: ts⟩ = .ok e.erase (⟨t :: ts⟩ : Tokens)
  | .args es => ∀ n k t ts, (printArgs es).length ≤ n → es.length ≤ k → t.type_ = .RParent →
    parse_args (parse (n + 1)) (k + 1) ⟨printArgs es ++ t :: ts⟩ =
      .ok (eraseAll es) (⟨t :: ts⟩ : Tokens)

@[simp] theorem setLoc_erase (e : Expr) : e.erase.setLoc .init .init = e.erase := by
  cases e <;> simp [erase, setLoc]

@[simp] theorem token_type (t : TokenType) : (token t).type_ = t := by
  cases t <;> rfl

def Part.Sized : Part → Prop
  | .atom e | .product e | .sum e | .comparison e => 0 < e.print.length
  | .factors ops es | .summands ops es =>
    ops.length = es.length ∧ ops.length ≤ (printRest ops es).length
  | .args es => es.length ≤ (printArgs es).length

theorem Shape.sized {part : Part} (shape : Shape part) : part.Sized := by
  induction shape with
  | token | call | minus => simp [Part.Sized, print, printOps, printCall]
  | star _ _ _ first rest | plus _ _ _ first rest =>
    simp only [Part.Sized, print, printOps, rest.1, if_true, List.length_append] at first ⊢
    omega
  | greater => simp [Part.Sized, print, printOps, printRest]
  | product _ ih | sum _ ih | comparison _ ih => exact ih
  | factors_nil | summands_nil | args_nil => simp [Part.Sized, printArgs]
  | factors_cons _ _ _ _ rest | summands_cons _ _ _ _ rest =>
    simp only [Part.Sized, printRest, List.length_cons, List.length_append] at rest ⊢
    omega
  | args_cons _ _ first rest =>
    simp only [Part.Sized, printArgs, List.length_cons, List.length_append] at first rest ⊢
    split
    · next none => simp [none]; omega
    · simp; omega

theorem star_ends {op : TokenType} (h : is_star op = true) : ends op = true := by
  cases op <;> first | rfl | cases h

theorem plus_ends {op : TokenType} (h : is_plus op = true) : ends_product op = true := by
  cases op <;> first | rfl | cases h

theorem greater_ends {op : TokenType} (h : is_greater op = true) : ends_sum op = true := by
  cases op <;> first | rfl | cases h

theorem op_inside {is_op : TokenType → Bool} {op : TokenType} (h : is_op op = true)
    (enf : is_op .Enf = false) : op ≠ .Enf := by
  rintro rfl
  rw [enf] at h
  cases h

theorem printRest_head {ends' : TokenType → Bool} {is_op : TokenType → Bool}
    (op_ends : ∀ op, is_op op = true → ends' op = true) {ops : List TokenType} (es : List Expr)
    (all : ∀ op ∈ ops, is_op op = true) {t : Value} (ts : List Value) (stop : ends' t.type_ = true) :
    ∃ u us, printRest ops es ++ t :: ts = u :: us ∧ ends' u.type_ = true := by
  cases ops with
  | nil => exact ⟨t, ts, by simp [printRest], stop⟩
  | cons op ops =>
    cases es with
    | nil => exact ⟨t, ts, by simp [printRest], stop⟩
    | cons e es => exact ⟨token op, _, rfl, op_ends op (all op List.mem_cons_self)⟩

theorem Shape.operators {part : Part} (shape : Shape part) :
    match part with
    | .factors ops _ => ∀ op ∈ ops, is_star op = true
    | .summands ops _ => ∀ op ∈ ops, is_plus op = true
    | _ => True := by
  induction shape with
  | factors_nil | summands_nil => exact nofun
  | factors_cons op _ _ _ rest | summands_cons op _ _ _ rest =>
    exact List.forall_mem_cons.mpr ⟨op, rest⟩
  | _ => exact trivial

theorem operators_parse {is_op ends' : TokenType → Bool} {operand : Parsing Tokens Expr}
    {msg : String} {op : TokenType} {e : Expr} {ops : List TokenType} {es : List Expr} {k : Nat}
    {t : Value} {ts : List Value} (holds : is_op op = true) (inside : op ≠ .Enf)
    (op_ends : ∀ op, is_op op = true → ends' op = true) (all : ∀ op ∈ ops, is_op op = true)
    (stop : ends' t.type_ = true)
    (first : ∀ u us, ends' u.type_ = true → operand ⟨e.print ++ u :: us⟩ = .ok e.erase ⟨u :: us⟩)
    (rest : parse_operators is_op operand msg k ⟨printRest ops es ++ t :: ts⟩ =
      .ok (ops, eraseAll es) ⟨t :: ts⟩) :
    parse_operators is_op operand msg (k + 1) ⟨printRest (op :: ops) (e :: es) ++ t :: ts⟩ =
      .ok (op :: ops, eraseAll (e :: es)) ⟨t :: ts⟩ := by
  obtain ⟨u, us, head, stop'⟩ := printRest_head op_ends es all ts stop
  have operands := first u us stop'
  rw [← head] at operands
  simp only [printRest, List.cons_append, List.append_assoc]
  exact parse_operators_cons holds inside (by simp [head]) operands rest

theorem chain_parse {is_op ends' : TokenType → Bool} {operand : Parsing Tokens Expr}
    {first_msg msg : String} {e : Expr} {ops : List TokenType} {es : List Expr} {n : Nat}
    {t : Value} {ts : List Value} (same : ops.length = es.length) (more : ops ≠ [])
    (op_ends : ∀ op, is_op op = true → ends' op = true) (all : ∀ op ∈ ops, is_op op = true)
    (first : ∀ u us, ends' u.type_ = true → operand ⟨e.print ++ u :: us⟩ = .ok e.erase ⟨u :: us⟩)
    (rest : parse_operators is_op operand msg n ⟨printRest ops es ++ t :: ts⟩ =
      .ok (ops, eraseAll es) ⟨t :: ts⟩) :
    parse_chain is_op operand first_msg msg n ⟨printOps ops (e :: es) ++ t :: ts⟩ =
      .ok (.OPS .init .init ops (eraseAll (e :: es))) ⟨t :: ts⟩ := by
  cases ops with
  | nil => exact absurd rfl more
  | cons op ops =>
    cases es with
    | nil => cases same
    | cons e' es =>
      have holds := all op List.mem_cons_self
      simp only [printOps, same, if_true, List.append_assoc]
      exact parse_chain_ok (first (Print.token op) _ (op_ends op holds)) holds rest

theorem Shape.parses {part : Part} (shape : Shape part) : part.Parses := by
  induction shape with
  | token atomic =>
    intro n t ts _ stop
    exact parse_atomic_token atomic (by simpa [ends] using stop)
  | minus atomic =>
    intro n t ts _ _
    exact parse_atomic_minus rfl atomic (List.cons_ne_nil t ts)
  | @call es l r l' r' v atomic args ih =>
    intro n t ts bound _
    have sized := args.sized
    simp only [Part.Sized] at sized
    simp only [print, printCall, List.length_append, List.length_cons, List.length_nil] at bound
    obtain ⟨m, rfl⟩ : ∃ m, n = m + 1 := ⟨n - 1, by omega⟩
    have inner := ih m m (Print.token .RParent) (t :: ts) (by omega) (by omega) rfl
    have call := parse_atomic_call (parse_funcall_ok (l := Print.token .LParent) (v := v.erase) atomic
      rfl rfl (by simp) (List.cons_ne_nil t ts) inner)
    simpa [print, printCall, erase, eraseAll, setLoc] using call
  | @product e atom ih =>
    intro n t ts bound stop
    simp only [ends_product, Bool.and_eq_true, Bool.not_eq_true'] at stop
    exact (parse_chain_single (ih n t ts bound stop.1) stop.2).trans (by rw [setLoc_erase])
  | @star e ops es l r atom factors more first rest =>
    intro n t ts bound stop
    obtain ⟨same, length⟩ := factors.sized
    have positive : 0 < e.print.length := atom.sized
    simp only [print, printOps, same, if_true, List.length_append] at bound
    exact chain_parse same more (fun _ => star_ends) factors.operators
      (fun u us stop => first n u us (by omega) stop) (rest _ n n t ts (by omega) (by omega) stop)
  | factors_nil =>
    intro msg n k t ts _ bound stop
    simp only [ends_product, Bool.and_eq_true, Bool.not_eq_true'] at stop
    obtain ⟨k, rfl⟩ : ∃ j, k = j + 1 := ⟨k - 1, by omega⟩
    exact parse_operators_stop stop.2
  | @factors_cons op e ops es star atom factors first rest =>
    intro msg n k t ts length bound stop
    simp only [printRest, List.length_cons, List.length_append] at length bound
    obtain ⟨k, rfl⟩ : ∃ j, k = j + 1 := ⟨k - 1, by omega⟩
    exact operators_parse star (op_inside star rfl) (fun _ => star_ends) factors.operators
      (by simp only [ends_product, Bool.and_eq_true] at stop; exact stop.1)
      (fun u us stop => first n u us (by omega) stop)
      (rest msg n k t ts (by omega) (by omega) stop)
  | @sum e product ih =>
    intro n t ts bound stop
    simp only [ends_sum, Bool.and_eq_true, Bool.not_eq_true'] at stop
    exact (parse_chain_single (ih n t ts bound stop.1) stop.2).trans (by rw [setLoc_erase])
  | @plus e ops es l r product summands more first rest =>
    intro n t ts bound stop
    obtain ⟨same, length⟩ := summands.sized
    have positive : 0 < e.print.length := product.sized
    simp only [print, printOps, same, if_true, List.length_append] at bound
    exact chain_parse same more (fun _ => plus_ends) summands.operators
      (fun u us stop => first n u us (by omega) stop) (rest _ n n t ts (by omega) (by omega) stop)
  | summands_nil =>
    intro msg n k t ts _ bound stop
    simp only [ends_sum, Bool.and_eq_true, Bool.not_eq_true'] at stop
    obtain ⟨k, rfl⟩ : ∃ j, k = j + 1 := ⟨k - 1, by omega⟩
    exact parse_operators_stop stop.2
  | @summands_cons op e ops es plus product summands first rest =>
    intro msg n k t ts length bound stop
    simp only [printRest, List.length_cons, List.length_append] at length bound
    obtain ⟨k, rfl⟩ : ∃ j, k = j + 1 := ⟨k - 1, by omega⟩
    exact operators_parse plus (op_inside plus rfl) (fun _ => plus_ends) summands.operators
      (by simp only [ends_sum, Bool.and_eq_true] at stop; exact stop.1)
      (fun u us stop => first n u us (by omega) stop)
      (rest msg n k t ts (by omega) (by omega) stop)
  | comparison _ ih =>
    intro n t ts bound stop
    simp only [ends_comparison, Bool.and_eq_true, Bool.not_eq_true'] at stop
    exact (parse_single (ih n t ts bound stop.1) stop.2).trans (by rw [setLoc_erase])
  | @greater op a b l r holds _ _ left right =>
    intro n t ts bound stop
    simp only [ends_comparison, Bool.and_eq_true] at stop
    simp only [print, printOps, printRest, List.length_append, List.length_cons, List.length_nil,
      if_true] at bound
    have first := left n (Print.token op) (b.print ++ t :: ts) (by omega) (greater_ends holds)
    have second := right n t ts (by omega) stop.1
    have compared := parse_compared first holds (by simp) second
    simpa [print, printOps, printRest, erase, eraseAll] using compared
  | args_nil =>
    intro n k t ts _ _ right
    exact parse_args_nil (parse_other (by rw [right]; rfl))
  | @args_cons e es _ _ first rest =>
    intro n k t ts length bound right
    have stop : ends_comparison t.type_ = true := by rw [right]; rfl
    simp only [printArgs, List.length_cons, List.length_append] at length bound
    cases es with
    | nil =>
      simp only [printArgs, if_true, List.append_nil] at length ⊢
      exact parse_args_last (first n t ts (by omega) stop) (by simp [right])
    | cons e' es =>
      simp only [reduceCtorEq, if_false, List.length_cons] at length
      obtain ⟨k, rfl⟩ : ∃ j, k = j + 1 := ⟨k - 1, by omega⟩
      have item := first n (Print.token .Comma) (printArgs (e' :: es) ++ t :: ts) (by omega) rfl
      have items := rest n k t ts (by omega) (by omega) right
      have args := parse_args_cons item rfl (by simp) items
      simpa [printArgs, eraseAll] using args

def Opens (e : Expr) : Prop :=
  ∀ u us, u.type_ ≠ .Assign →
    ∃ v w ws, e.print ++ u :: us = v :: w :: ws ∧ begins v.type_ = true ∧ w.type_ ≠ .Assign

theorem opens_chain {l r : Loc} {e : Expr} {ops : List TokenType} {es : List Expr}
    {is_op : TokenType → Bool} (same : ops.length = es.length) (more : ops ≠ [])
    (all : ∀ op ∈ ops, is_op op = true) (no_assign : is_op .Assign = false) (first : e.Opens) :
    (OPS l r ops (e :: es)).Opens := by
  intro u us _
  cases ops with
  | nil => exact absurd rfl more
  | cons op ops =>
    cases es with
    | nil => cases same
    | cons e' es =>
      have other : (Print.token op).type_ ≠ .Assign := by
        rw [token_type]
        rintro rfl
        rw [all .Assign List.mem_cons_self] at no_assign
        cases no_assign
      obtain ⟨v, w, ws, head, begin, second⟩ :=
        first (Print.token op) (e'.print ++ printRest ops es ++ u :: us) other
      refine ⟨v, w, ws, ?_, begin, second⟩
      rw [← head]
      simp [print, printOps, printRest, same]

theorem Shape.opens {part : Part} (shape : Shape part) :
    match part with
    | .atom e | .product e | .sum e | .comparison e => e.Opens
    | _ => True := by
  induction shape with
  | token atomic =>
    intro u us other
    exact ⟨_, u, us, rfl, by simpa [begins] using .inl atomic, other⟩
  | @minus l r l' r' v atomic =>
    intro u us _
    refine ⟨Print.token .Sub, v.erase, u :: us, rfl, by simp [begins], ?_⟩
    intro assign
    rw [show v.type_ = .Assign from assign] at atomic
    cases atomic
  | @call es l r l' r' v atomic =>
    intro u us _
    refine ⟨v.erase, Print.token .LParent, printArgs es ++ Print.token .RParent :: u :: us, ?_, ?_, ?_⟩
    · simp [print, printCall]
    · simpa [begins, Value.erase] using .inl atomic
    · simp
  | product _ ih | sum _ ih | comparison _ ih => exact ih
  | star _ factors more ih => exact opens_chain factors.sized.1 more factors.operators rfl ih
  | plus _ summands more ih => exact opens_chain summands.sized.1 more summands.operators rfl ih
  | @greater op a b l r holds _ _ ih =>
    exact opens_chain rfl (List.cons_ne_nil _ _)
      (List.forall_mem_singleton.mpr holds) rfl ih
  | _ => exact trivial

end Expr

end Mygo

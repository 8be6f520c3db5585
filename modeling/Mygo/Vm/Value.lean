import Mygo.Compiler.Arith

namespace Mygo

/-- `float`, its arithmetic, and `std::to_string` on it. -/
class Floating (F : Type) where
  of_int : Int → F
  add : F → F → F
  sub : F → F → F
  mul : F → F → F
  div : F → F → F
  to_string : F → Bytes

namespace Dynamic

inductive Callee
  | Userdef (func_name : Bytes)
  | Builtin
  deriving DecidableEq

structure Func where
  is_builtin_ : Bool
  func_ : Callee
  deriving DecidableEq

namespace Func

def of : Callee → Func
  | .Userdef func_name => ⟨false, .Userdef func_name⟩
  | .Builtin => ⟨true, .Builtin⟩

/-- `none` is a failed assertion, or the access to another alternative of a variant, here and
below. -/
def AsUserDef (f : Func) : Option Bytes :=
  if f.is_builtin_ then none
  else match f.func_ with
    | .Userdef func_name => some func_name
    | .Builtin => none

def ToString (f : Func) : Option Bytes := if f.is_builtin_ then some (bytes "buildin") else f.AsUserDef

end Func

abbrev Type_t := String

def NIL : Type_t := "nil"
def BOOL : Type_t := "bool"
def STR : Type_t := "bool"
def INT : Type_t := "int"
def FLOAT : Type_t := "float"
def STRUCT : Type_t := "struct"
def FUNC : Type_t := "func"

inductive Data (F : Type)
  | bool (b : Bool)
  | string (s : Bytes)
  | int (i : Int)
  | float (f : F)
  | func (f : Func)

structure Value (F : Type) where
  type : Type_t
  data : Data F

variable {F : Type}

namespace Data

def tag : Data F → Type_t
  | .int _ => INT
  | .bool _ => BOOL
  | .string _ => STR
  | .float _ => FLOAT
  | .func _ => FUNC

def index : Data F → Nat
  | .bool _ => 0
  | .string _ => 1
  | .int _ => 2
  | .float _ => 3
  | .func _ => 4

def get_bool : Data F → Option Bool
  | .bool b => some b
  | _ => none

def get_string : Data F → Option Bytes
  | .string s => some s
  | _ => none

def get_int : Data F → Option Int
  | .int i => some i
  | _ => none

def get_float : Data F → Option F
  | .float f => some f
  | _ => none

def get_func : Data F → Option Func
  | .func f => some f
  | _ => none

end Data

namespace Value

def Make (v : Data F) : Value F := ⟨v.tag, v⟩

variable [Floating F]

def ToString (v : Value F) : Option Bytes :=
  if v.type = INT then v.data.get_int.map fun i => bytes (toString i)
  else if v.type = STR then v.data.get_string
  else if v.type = BOOL then v.data.get_bool.map fun b => bytes (if b then "true" else "false")
  else if v.type = FLOAT then v.data.get_float.map Floating.to_string
  else if v.type = FUNC then do
    let text ← (← v.data.get_func).ToString
    some (bytes "func(" ++ text ++ bytes ")")
  else if v.type = STRUCT then some (bytes "Object")
  else some []

open Arithmetic in
/-- The unary operators; `none` is also an overflow of `int` or a division by zero, here and
below. -/
def Operator (v : Value F) (tk : TokenType) : Option (Option (Value F)) :=
  if tk = .Sub then
    if v.type = INT then do
      some (some (Make (.int (← checked (-1 * (← v.data.get_int))))))
    else if v.type = FLOAT then do
      some (some (Make (.float (Floating.mul (Floating.of_int (-1)) (← v.data.get_float)))))
    else some none
  else some none

/-- `DO_BINARAY_OP`, and what comes after it. -/
def do_binary_op (TK_TYPE : TokenType) (int_op : Int → Int → Option Int) (float_op : F → F → F)
    (tk : TokenType) (v other : Value F) (rest : Option (Option (Value F))) : Option (Option (Value F)) :=
  if tk = TK_TYPE then
    if v.type = INT ∧ other.type = INT then do
      some (some (Make (.int (← int_op (← v.data.get_int) (← other.data.get_int)))))
    else if v.type = INT ∧ other.type = FLOAT then do
      some (some (Make (.float (float_op (Floating.of_int (← v.data.get_int)) (← other.data.get_float)))))
    else if v.type = FLOAT ∧ other.type = INT then do
      some (some (Make (.float (float_op (← v.data.get_float) (Floating.of_int (← other.data.get_int))))))
    else if v.type = FLOAT ∧ other.type = FLOAT then do
      some (some (Make (.float (float_op (← v.data.get_float) (← other.data.get_float)))))
    else rest
  else rest

open Arithmetic in
def OperatorWith (v : Value F) (tk : TokenType) (other : Value F) : Option (Option (Value F)) :=
  do_binary_op .Plus (fun x y => checked (x + y)) Floating.add tk v other <|
  do_binary_op .Sub (fun x y => checked (x - y)) Floating.sub tk v other <|
  do_binary_op .Star (fun x y => checked (x * y)) Floating.mul tk v other <|
  do_binary_op .Slash (fun x y => if y = 0 then none else checked (x.tdiv y)) Floating.div tk v other <|
  some none

end Value

/-- What a variant holds in a program: an `int` in its range, a `Func` from a constructor. -/
def Data.Held : Data F → Prop
  | .int i => IsInt i
  | .func f => ∃ callee, f = .of callee
  | _ => True

variable [Floating F]

inductive Made : Value F → Prop
  | Make : d.Held → Made (.Make d)
  | Operator : Made v → v.Operator tk = some (some w) → Made w
  | OperatorWith : Made v → Made w → v.OperatorWith tk w = some (some x) → Made x

def combine (int_op : Int → Int → Option Int) (float_op : F → F → F) : Data F → Data F → Option (Option (Data F))
  | .int x, .int y => (int_op x y).map (some ∘ .int)
  | .int x, .float y => some (some (.float (float_op (Floating.of_int x) y)))
  | .float x, .int y => some (some (.float (float_op x (Floating.of_int y))))
  | .float x, .float y => some (some (.float (float_op x y)))
  | _, _ => some none

section Operators

variable {TK tk : TokenType} {int_op : Int → Int → Option Int} {float_op : F → F → F}
variable {v w : Value F} {d e : Data F} {rest : Option (Option (Value F))}

theorem do_binary_other (other : tk ≠ TK) : Value.do_binary_op TK int_op float_op tk v w rest = rest :=
  if_neg other

theorem do_binary_same : Value.do_binary_op TK int_op float_op TK (.Make d) (.Make e) (some none) =
    (combine int_op float_op d e).map (Option.map .Make) := by
  cases d <;> cases e <;>
    simp [Value.do_binary_op, Value.Make, Data.tag, INT, FLOAT, BOOL, STR, FUNC, combine, Data.get_int,
      Data.get_float]
  case int.int x y =>
    cases int_op x y with
    | none | some z => rfl

open Arithmetic in
def operate (tk : TokenType) (d e : Data F) : Option (Option (Data F)) :=
  match tk with
  | .Plus => combine (fun x y => checked (x + y)) Floating.add d e
  | .Sub => combine (fun x y => checked (x - y)) Floating.sub d e
  | .Star => combine (fun x y => checked (x * y)) Floating.mul d e
  | .Slash => combine (fun x y => if y = 0 then none else checked (x.tdiv y)) Floating.div d e
  | _ => some none

theorem operatorWith_make :
    (Value.Make d).OperatorWith tk (.Make e) = (operate tk d e).map (Option.map .Make) := by
  rw [Value.OperatorWith]
  by_cases plus : tk = .Plus
  · subst plus
    rw [do_binary_other (nofun : TokenType.Plus ≠ .Sub), do_binary_other (nofun : TokenType.Plus ≠ .Star),
      do_binary_other (nofun : TokenType.Plus ≠ .Slash)]
    exact do_binary_same
  · rw [do_binary_other plus]
    by_cases sub : tk = .Sub
    · subst sub
      rw [do_binary_other (nofun : TokenType.Sub ≠ .Star), do_binary_other (nofun : TokenType.Sub ≠ .Slash)]
      exact do_binary_same
    · rw [do_binary_other sub]
      by_cases star : tk = .Star
      · subst star
        rw [do_binary_other (nofun : TokenType.Star ≠ .Slash)]
        exact do_binary_same
      · rw [do_binary_other star]
        by_cases slash : tk = .Slash
        · subst slash
          exact do_binary_same
        · rw [do_binary_other slash, operate]
          · rfl
          · exact plus
          · exact sub
          · exact star
          · exact slash

open Arithmetic in
def negate (tk : TokenType) (d : Data F) : Option (Option (Data F)) :=
  match tk, d with
  | .Sub, .int x => (checked (-1 * x)).map (some ∘ .int)
  | .Sub, .float x => some (some (.float (Floating.mul (Floating.of_int (-1)) x)))
  | _, _ => some none

theorem operator_make : (Value.Make d).Operator tk = (negate tk d).map (Option.map .Make) := by
  rw [Value.Operator]
  by_cases sub : tk = .Sub
  · subst sub
    rw [if_pos rfl]
    cases d <;> simp [Value.Make, Data.tag, INT, FLOAT, BOOL, STR, FUNC, negate, Data.get_int, Data.get_float]
    case int x =>
      cases Arithmetic.checked (-x) with
      | none | some z => rfl
  · rw [if_neg sub, negate]
    · rfl
    · exact fun _ same _ => sub same
    · exact fun _ same _ => sub same

theorem held_checked {x y : Int} (h : Arithmetic.checked x = some y) : IsInt y := by
  rw [Arithmetic.checked] at h
  split at h
  · next inside =>
    cases h
    exact inside
  · cases h

theorem held_combine {d' : Data F} (ints : ∀ x y z, int_op x y = some z → IsInt z)
    (h : combine int_op float_op d e = some (some d')) : d'.Held := by
  cases d with
  | int x =>
    cases e with
    | int y =>
      obtain ⟨z, result, same⟩ := Option.map_eq_some_iff.mp h
      cases same
      exact ints x y z result
    | float y =>
      cases h
      trivial
    | bool | string | func => cases h
  | float x =>
    cases e with
    | int y | float y =>
      cases h
      trivial
    | bool | string | func => cases h
  | bool | string | func => cases h

theorem held_operate {d' : Data F} (h : operate tk d e = some (some d')) : d'.Held := by
  unfold operate at h
  split at h
  · exact held_combine (fun _ _ _ => held_checked) h
  · exact held_combine (fun _ _ _ => held_checked) h
  · exact held_combine (fun _ _ _ => held_checked) h
  · refine held_combine (fun x y z result => ?_) h
    split at result
    · cases result
    · exact held_checked result
  · cases h

theorem held_negate {d' : Data F} (h : negate tk d = some (some d')) : d'.Held := by
  unfold negate at h
  split at h
  · obtain ⟨z, result, same⟩ := Option.map_eq_some_iff.mp h
    cases same
    exact held_checked result
  · cases h
    trivial
  · cases h

theorem Made.held (h : Made v) : ∃ d, d.Held ∧ v = .Make d := by
  induction h with
  | Make held => exact ⟨_, held, rfl⟩
  | Operator _ result ih =>
    obtain ⟨d, -, rfl⟩ := ih
    rw [operator_make] at result
    obtain ⟨o, negated, same⟩ := Option.map_eq_some_iff.mp result
    obtain ⟨d', rfl, made⟩ := Option.map_eq_some_iff.mp same
    exact ⟨d', held_negate negated, made.symm⟩
  | OperatorWith _ _ result ih ih' =>
    obtain ⟨d, -, rfl⟩ := ih
    obtain ⟨e, -, rfl⟩ := ih'
    rw [operatorWith_make] at result
    obtain ⟨o, operated, same⟩ := Option.map_eq_some_iff.mp result
    obtain ⟨d', rfl, made⟩ := Option.map_eq_some_iff.mp same
    exact ⟨d', held_operate operated, made.symm⟩

def Leaves (tk : TokenType) (x y : Int) : Prop :=
  match tk with
  | .Plus => ¬ IsInt (x + y)
  | .Sub => ¬ IsInt (x - y)
  | .Star => ¬ IsInt (x * y)
  | .Slash => y = 0 ∨ x = -2 ^ 31 ∧ y = -1
  | _ => False

/-- The tag of a value tells what it holds, its text is that of what it holds, and operators give a
value or none. -/
structure Sound (v w : Value F) (tk : TokenType) : Prop where
  tag : ∀ x : Value F, Made x → x.type = v.type → x.data.index = v.data.index
  text : v.ToString ≠ none
  unary : v.Operator tk ≠ none
  binary : v.OperatorWith tk w ≠ none

/-- No `bool` and no string, and integers whose results stay in `int`. -/
structure Proper (d e : Data F) (tk : TokenType) : Prop where
  bool : ∀ b, d ≠ .bool b
  string : ∀ s, d ≠ .string s
  unary : tk = .Sub → d ≠ .int (-2 ^ 31)
  binary : ∀ x y, d = .int x → e = .int y → ¬ Leaves tk x y

theorem tag_iff : (∀ x : Value F, Made x → x.type = (Value.Make d).type → x.data.index = d.index) ↔
    (∀ b, d ≠ .bool b) ∧ ∀ s, d ≠ .string s := by
  constructor
  · intro determined
    constructor
    · rintro b rfl
      cases determined (.Make (.string [])) (.Make trivial) rfl
    · rintro s rfl
      cases determined (.Make (.bool true)) (.Make trivial) rfl
  · rintro ⟨bool, string⟩ x made tag
    obtain ⟨d', -, rfl⟩ := made.held
    have tag : d'.tag = d.tag := tag
    cases d with
    | bool b => exact absurd rfl (bool b)
    | string s => exact absurd rfl (string s)
    | int | float | func =>
      cases d' <;> first | rfl | exact absurd tag (by simp [Data.tag, INT, FLOAT, BOOL, STR, FUNC])

@[simp] theorem Func.toString_of (callee : Callee) : (Func.of callee).ToString ≠ none := by
  cases callee <;> simp [of, ToString, AsUserDef]

/-- The tag of strings is compared before that of `bool`, and is the same. -/
theorem text_iff (held : d.Held) : (Value.Make d).ToString ≠ none ↔ ∀ b, d ≠ .bool b := by
  cases d with
  | bool b => simp [Value.ToString, Value.Make, Data.tag, INT, BOOL, STR, Data.get_string]
  | string s => simp [Value.ToString, Value.Make, Data.tag, INT, STR, Data.get_string]
  | int i => simp [Value.ToString, Value.Make, Data.tag, Data.get_int]
  | float f => simp [Value.ToString, Value.Make, Data.tag, INT, BOOL, STR, FLOAT, Data.get_float]
  | func f =>
    obtain ⟨callee, rfl⟩ := held
    obtain ⟨text, spelled⟩ := Option.ne_none_iff_exists'.mp (Func.toString_of callee)
    simp [Value.ToString, Value.Make, Data.tag, INT, BOOL, STR, FLOAT, FUNC, Data.get_func, spelled]

theorem checked_none {x : Int} : Arithmetic.checked x = none ↔ ¬ IsInt x := by
  rw [Arithmetic.checked]
  split <;> simp_all

theorem unary_iff (held : d.Held) : (Value.Make d).Operator tk ≠ none ↔ (tk = .Sub → d ≠ .int (-2 ^ 31)) := by
  rw [operator_make, ne_eq, Option.map_eq_none_iff]
  unfold negate
  split
  · next x =>
    have inside : IsInt x := held
    rw [Option.map_eq_none_iff, checked_none, not_not]
    constructor
    · rintro result - same
      cases same
      exact absurd result (by decide)
    · intro other
      have other : x ≠ -2 ^ 31 := fun same => other rfl (congrArg Data.int same)
      unfold IsInt at inside ⊢
      omega
  · simp
  · next other _ =>
    simp only [reduceCtorEq, not_false_eq_true, true_iff]
    exact fun sub same => other _ sub same

theorem combine_none : combine int_op float_op d e = none ↔
    ∃ x y, d = .int x ∧ e = .int y ∧ int_op x y = none := by
  cases d <;> cases e <;> simp [combine]

theorem tdiv_inside {x y : Int} (hx : IsInt x) (hy : y ≠ 0) : IsInt (x.tdiv y) ↔ ¬ (x = -2 ^ 31 ∧ y = -1) := by
  unfold IsInt at hx ⊢
  by_cases one : y = 1
  · subst one
    rw [Int.tdiv_one]
    omega
  by_cases minus : y = -1
  · subst minus
    rw [Int.tdiv_neg, Int.tdiv_one]
    omega
  · -- any other divisor at least halves the absolute value
    have half : (x.tdiv y).natAbs ≤ x.natAbs / 2 := by
      rw [Int.natAbs_tdiv]
      exact Nat.div_le_div_left (by omega) (by omega)
    omega

theorem leaves_iff {x y : Int} (hx : IsInt x) :
    operate tk (.int x : Data F) (.int y) = none ↔ Leaves tk x y := by
  unfold operate Leaves
  split
  · simp [combine, checked_none]
  · simp [combine, checked_none]
  · simp [combine, checked_none]
  · by_cases zero : y = 0
    · simp [combine, zero]
    · simp [combine, zero, checked_none, tdiv_inside hx zero]
  · simp

theorem operate_none : operate tk d e = none ↔
    ∃ x y, d = .int x ∧ e = .int y ∧ operate tk d e = none := by
  constructor
  · intro fails
    have : ∃ x y, d = .int x ∧ e = .int y := by
      unfold operate at fails
      split at fails
      case h_5 => cases fails
      all_goals
        obtain ⟨x, y, left, right, -⟩ := combine_none.mp fails
        exact ⟨x, y, left, right⟩
    obtain ⟨x, y, left, right⟩ := this
    exact ⟨x, y, left, right, fails⟩
  · rintro ⟨-, -, -, -, fails⟩
    exact fails

theorem binary_iff (held : d.Held) : (Value.Make d).OperatorWith tk (.Make e) ≠ none ↔
    ∀ x y, d = .int x → e = .int y → ¬ Leaves tk x y := by
  rw [operatorWith_make, ne_eq, Option.map_eq_none_iff, operate_none]
  constructor
  · rintro total x y rfl rfl leaves
    exact total ⟨x, y, rfl, rfl, (leaves_iff held).mpr leaves⟩
  · rintro stays ⟨x, y, rfl, rfl, fails⟩
    exact stays x y rfl rfl ((leaves_iff held).mp fails)

/-- Values are sound exactly where they are proper. -/
theorem sound_iff (hv : Made v) (hw : Made w) : Sound v w tk ↔ Proper v.data w.data tk := by
  obtain ⟨d, held, rfl⟩ := hv.held
  obtain ⟨e, -, rfl⟩ := hw.held
  constructor
  · rintro ⟨tag, text, unary, binary⟩
    obtain ⟨bool, string⟩ := tag_iff.mp tag
    exact ⟨bool, string, (unary_iff held).mp unary, (binary_iff held).mp binary⟩
  · rintro ⟨bool, string, unary, binary⟩
    exact ⟨tag_iff.mpr ⟨bool, string⟩, (text_iff held).mpr bool, (unary_iff held).mpr unary,
      (binary_iff held).mpr binary⟩

end Operators

instance : Floating Float32 where
  of_int := .ofInt
  add := (· + ·)
  sub := (· - ·)
  mul := (· * ·)
  div := (· / ·)
  to_string x := bytes (toString x)

theorem made_int {i : Int} (inside : IsInt i) : Made (.Make (.int i) : Value Float32) := .Make inside

theorem sound_sample :
    Sound (.Make (.int 7) : Value Float32) (.Make (.int (-2))) .Slash ∧
      ¬ Sound (.Make (.string []) : Value Float32) (.Make (.int 0)) .Plus := by
  constructor
  · refine (sound_iff (made_int (by decide)) (made_int (by decide))).mpr ⟨nofun, nofun, nofun, ?_⟩
    rintro x y ⟨⟩ ⟨⟩ (zero | ⟨least, -⟩)
    · exact absurd zero (by decide)
    · exact absurd least (by decide)
  · intro sound
    exact ((sound_iff (.Make (d := .string []) trivial) (made_int (by decide))).mp sound).string [] rfl

/-- The text of `true` is taken from the string alternative, and integers are divided by zero and
leave `int`. -/
theorem text_of_bool_lost :
    ¬ (∀ (v w : Value Float32) (tk : TokenType), Made v → Made w → Sound v w tk) ∧
      (Value.Make (.bool true) : Value Float32).ToString = none ∧
      (Value.Make (.int 1) : Value Float32).OperatorWith .Slash (.Make (.int 0)) = none ∧
      (Value.Make (.int (2 ^ 31 - 1)) : Value Float32).OperatorWith .Plus (.Make (.int 1)) = none ∧
      (Value.Make (.int (-2 ^ 31)) : Value Float32).Operator .Sub = none := by
  refine ⟨fun sound => ?_, rfl, rfl, rfl, rfl⟩
  exact (sound (.Make (.bool true)) (.Make (.bool true)) .Plus (.Make trivial) (.Make trivial)).text rfl

end Dynamic

end Mygo

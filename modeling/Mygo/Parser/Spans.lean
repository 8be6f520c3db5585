import Mygo.Lib.Spans
import Mygo.Parser.Blanks
import Mygo.Stream.Cache

namespace Mygo

open Lexer Parser

instance : PartialOrder Loc :=
  PartialOrder.lift (fun l => toLex (l.line, l.coloum)) fun l m same => by
    cases l
    cases m
    cases same
    rfl

theorem Loc.le_iff {l m : Loc} : l ≤ m ↔ l.line < m.line ∨ l.line = m.line ∧ l.coloum ≤ m.coloum :=
  Prod.Lex.le_iff

namespace Expr

mutual

def spans : Expr → SpanTree Loc
  | .TOKEN start end_ _ => .node start end_ []
  | .OPS start end_ _ exprs => .node start end_ (spansAll exprs)
  | .FUNCALL start end_ exprs => .node start end_ (spansAll exprs)

def spansAll : List Expr → List (SpanTree Loc)
  | [] => []
  | e :: es => e.spans :: spansAll es

end

end Expr

def Struct.spans (stct : Struct) : SpanTree Loc := .node stct.start stct.end_ []

def VarType.spans (t : VarType) : SpanTree Loc := .node t.start t.end_ (t.stct_.toList.map Struct.spans)

def Declaration.spans (decl : Declaration) : SpanTree Loc :=
  .node decl.start decl.end_ (decl.var_type.toList.map VarType.spans ++ [decl.expr.spans])

def Assignment.spans (asgm : Assignment) : SpanTree Loc := .node asgm.start asgm.end_ [asgm.expr.spans]

def Return.spans (ret : Return) : SpanTree Loc := .node ret.start ret.end_ (Expr.spansAll ret.ret_exprs)

def Typedef.spans (tdef : Typedef) : SpanTree Loc := .node tdef.start tdef.end_ [tdef.old_type_.spans]

namespace Node

mutual

def spans : Node → SpanTree Loc
  | .Declaration decl => decl.spans
  | .Assignment asgm => asgm.spans
  | .Expr expr => expr.spans
  | .If start end_ branches tail => .node start end_ (spansBranches branches ++ spansTail tail)
  | .Function start end_ _ _ _ block => .node start end_ [spansBlock block]
  | .Return ret => ret.spans
  | .For start end_ decl cond step block =>
    .node start end_ (decl.toList.map Declaration.spans ++
      (cond.toList.map Expr.spans ++ (step.toList.map Assignment.spans ++ [spansBlock block])))
  | .Typedef tdef => tdef.spans

def spansBlock : Block → SpanTree Loc
  | .mk start end_ nodes => .node start end_ (spansNodes nodes)

def spansNodes : List Node → List (SpanTree Loc)
  | [] => []
  | node :: nodes => node.spans :: spansNodes nodes

def spansBranches : List If.Branch → List (SpanTree Loc)
  | [] => []
  | (cond, block) :: branches => cond.spans :: spansBlock block :: spansBranches branches

def spansTail : Option Block → List (SpanTree Loc)
  | none => []
  | some block => [spansBlock block]

end

end Node

def Root.spans (root : Root) : SpanTree Loc := .node root.start root.end_ [Node.spansBlock root.block_]

/-- The tokens begin with a variable that is assigned without a type. -/
def Untyped (ts : List Value) : Prop :=
  ∃ k n a rest, ts = k :: n :: a :: rest ∧ k.type_ = .Var ∧ n.type_ = .Symbol ∧ a.type_ = .Assign

instance : DecidablePred Untyped
  | k :: n :: a :: rest =>
    decidable_of_iff (k.type_ = .Var ∧ n.type_ = .Symbol ∧ a.type_ = .Assign)
      ⟨fun kinds => ⟨k, n, a, rest, rfl, kinds⟩, fun ⟨_, _, _, _, same, kinds⟩ => by cases same; exact kinds⟩
  | [] | [_] | [_, _] => .isFalse fun ⟨_, _, _, _, same, _⟩ => nomatch same

namespace TokenStream

variable {src : Bytes} {p q r : Nat} {l m n : Loc} {v w : Value} {us vs : List Value} {s t : TokenStream}

theorem spaces_between (h : Tiles src p l vs q m) (spaces : Spaces vs) (h' : Tiles src p l us r n) (before : r < q) :
    ∃ w, token src r = some w ∧ w.type_ = .Space := by
  induction h generalizing us with
  | nil => exact absurd h'.le (Nat.not_le_of_lt before)
  | cons first _ ih =>
    obtain ⟨space, others⟩ := List.forall_mem_cons.mp spaces
    cases h' with
    | nil => exact ⟨_, first, space⟩
    | cons first' rest' =>
      obtain rfl := Option.some.inj (first.symm.trans first')
      exact ih others rest' before

theorem untyped_var (here : token src p = some v) (other : v.type_ ≠ .Var) : ¬ Untyped (visible (src.drop p)) := by
  rintro ⟨k, n, a, rest, same, keyword, -, -⟩
  obtain ⟨vs, first⟩ := visible_head here
  cases first.symm.trans same
  exact other keyword

structure Steps (src : Bytes) (s t : TokenStream) (v : Value) : Prop where
  coherent : Coherent t
  source : t.src_ = src
  le : s.state_.pos ≤ t.state_.pos
  further : v.type_ ≠ .Enf → s.state_.pos < t.state_.pos
  here : token src s.state_.pos = some v
  behind : v.type_ ≠ .Enf → visible (src.drop s.state_.pos) = v :: visible (src.drop t.state_.pos)
  once : ∀ r l, Located src r l → s.state_.pos < r → r < t.state_.pos →
    ∃ w, token src r = some w ∧ w.type_ = .Space

theorem Coherent.steps (h : Coherent s) (source : s.src_ = src) (moved : s.Next = some t) :
    ∃ v, Steps src s t v := by
  subst source
  obtain ⟨v, spaces, here, all, coherent, same, tiles⟩ := h.next_cases moved
  refine ⟨v, coherent, same, tiles.le, fun inside => ?_, here, fun inside => ?_,
    fun r l located after_ before => ?_⟩
  · rw [ne_eq, token_enf here] at inside
    have pos := h.next_pos moved
    omega
  · obtain ⟨_, _, _, _, _, ⟨-, stuck⟩ | ⟨w, there, word, next⟩⟩ := h.next here
    · exact nomatch moved.symm.trans stuck
    · cases moved.symm.trans next
      cases tiles with
      | cons first rest =>
        rw [visible_token here inside, words_spaces rest all]
        exact congrArg (v :: ·) (words_visible there word)
  · obtain ⟨before_, reached⟩ := h.located
    obtain ⟨ws, whole⟩ := located
    obtain ⟨w, us, between⟩ := reached.between whole after_
    cases tiles with
    | cons first rest =>
      cases between with
      | cons first' rest' =>
        obtain rfl := Option.some.inj (first.symm.trans first')
        exact spaces_between rest all rest' before

theorem loc_le (h : Located src p l) (h' : Located src q m) (le : p ≤ q) : l ≤ m := by
  rcases Nat.eq_or_lt_of_le le with rfl | further
  · exact (h.unique h').le
  · obtain ⟨before, reached⟩ := h
    obtain ⟨ws, whole⟩ := h'
    obtain ⟨v, us, between⟩ := reached.between whole further
    rw [Loc.le_iff]
    rcases between.later with same | line | ⟨line, coloum⟩
    · omega
    · exact .inl line
    · exact .inr ⟨line, Nat.le_of_lt coloum⟩

/-- An untyped declaration that begins in this part of the source begins the source. -/
def Clear (src : Bytes) (p q : Nat) : Prop :=
  ∀ r l, Located src r l → p ≤ r → r < q → Untyped (visible (src.drop r)) → r = 0

theorem clear_append (h : p ≤ q) (h' : q ≤ r) : Clear src p r ↔ Clear src p q ∧ Clear src q r := by
  constructor
  · intro clear
    exact ⟨fun i l located low high => clear i l located low (high.trans_le h'),
      fun i l located low high => clear i l located (h.trans low) high⟩
  · rintro ⟨clear, clear'⟩ i l located low high
    rcases Nat.lt_or_ge i q with before | behind
    · exact clear i l located low before
    · exact clear' i l located behind high

theorem clear_empty : Clear src p p := fun _ _ _ low high => absurd high (Nat.not_lt_of_le low)

theorem Steps.clear_iff (h : Steps src s t v) (coherent : Coherent s) (source : s.src_ = src) :
    Clear src s.state_.pos t.state_.pos ↔ (Untyped (visible (src.drop s.state_.pos)) → s.state_.pos = 0) := by
  subst source
  constructor
  · intro clear untyped
    refine clear _ _ coherent.located (Nat.le_refl _) (h.further fun enf => ?_) untyped
    exact untyped_var h.here (by rw [enf]; nofun) untyped
  · intro first r l located low high untyped
    rcases Nat.eq_or_lt_of_le low with rfl | further
    · exact first untyped
    · obtain ⟨w, here, space⟩ := h.once r l located further high
      exact absurd untyped (untyped_var here (by rw [space]; nofun))

theorem Steps.back {u : TokenStream} (h : Steps src t u v) (same : t.state_ = s.state_) : Steps src s u v :=
  ⟨h.coherent, h.source, same ▸ h.le, same ▸ h.further, same ▸ h.here, same ▸ h.behind, same ▸ h.once⟩

/-- What is read from one stream to another has these spans: they follow each other, and they are nested
where no declaration in the middle of the source is untyped. -/
structure Marks (src : Bytes) (s t : TokenStream) (cs : List (SpanTree Loc)) : Prop where
  coherent : Coherent t
  source : t.src_ = src
  le : s.state_.pos ≤ t.state_.pos
  row : SpanTree.Row s.state_.loc t.state_.loc cs
  nested : (∀ c ∈ cs, c.Nested) ↔ Clear src s.state_.pos t.state_.pos

namespace Marks

variable {u : TokenStream} {cs ds : List (SpanTree Loc)}

theorem again (h : Marks src s t cs) (coherent : Coherent u) (source : u.src_ = src) (same : u.state_ = t.state_) :
    Marks src s u cs :=
  ⟨coherent, source, same ▸ h.le, same ▸ h.row, same ▸ h.nested⟩

theorem back (h : Marks src t u cs) (same : t.state_ = s.state_) : Marks src s u cs :=
  ⟨h.coherent, h.source, same ▸ h.le, same ▸ h.row, same ▸ h.nested⟩

theorem here (coherent : Coherent t) (source : t.src_ = src) (same : t.state_ = s.state_) : Marks src s t [] := by
  refine ⟨coherent, source, same ▸ Nat.le_refl _, same ▸ le_refl _, ?_⟩
  rw [same]
  exact iff_of_true nofun clear_empty

theorem append (h : Marks src s t cs) (h' : Marks src t u ds) : Marks src s u (cs ++ ds) := by
  refine ⟨h'.coherent, h'.source, h.le.trans h'.le, h.row.append h'.row, ?_⟩
  rw [List.forall_mem_append, h.nested, h'.nested, clear_append h.le h'.le]

theorem skip (h : Marks src s t cs) (h' : Marks src t u []) : Marks src s u cs := by
  simpa using h.append h'

theorem node (h : Marks src s t cs) : Marks src s t [.node s.state_.loc t.state_.loc cs] := by
  refine ⟨h.coherent, h.source, h.le, h.row.node, ?_⟩
  rw [List.forall_mem_singleton, h.row.nested_iff, h.nested]

theorem step (h : Marks src s t cs) (steps : Steps src t u v) (plain : ¬ Untyped (visible (src.drop t.state_.pos))) :
    Marks src s u cs := by
  have row : t.state_.loc ≤ u.state_.loc := by
    refine loc_le (h.source ▸ h.coherent.located) (steps.source ▸ steps.coherent.located) steps.le
  have clear := (steps.clear_iff h.coherent h.source).mpr fun untyped => absurd untyped plain
  exact h.skip ⟨steps.coherent, steps.source, steps.le, row, iff_of_true nofun clear⟩

theorem untyped {e : SpanTree Loc} (coherent : Coherent s) (source : s.src_ = src) (steps : Steps src s t v)
    (untyped : Untyped (visible (src.drop s.state_.pos))) (rest : Marks src t u [e]) :
    Marks src s u [.node s.state_.loc u.state_.loc [.node .init .init [], e]] := by
  subst source
  have begin_ : Located s.src_ 0 .init := ⟨[], .nil⟩
  have start : s.state_.loc ≤ t.state_.loc :=
    loc_le coherent.located (steps.source ▸ steps.coherent.located) steps.le
  have row : SpanTree.Row s.state_.loc u.state_.loc [e] := rest.row.before start
  have first : s.state_.pos = 0 → s.state_.loc = .init := by
    intro zero
    have located := coherent.located
    rw [zero] at located
    exact located.unique begin_
  refine ⟨rest.coherent, rest.source, steps.le.trans rest.le, ⟨le_refl _, row.le, le_refl _⟩, ?_⟩
  rw [clear_append steps.le rest.le, steps.clear_iff coherent rfl, ← rest.nested, List.forall_mem_singleton]
  constructor
  · rintro (⟨-, inside_, -, all⟩)
    refine ⟨fun _ => ?_, fun c member => all c (List.mem_cons_of_mem _ member)⟩
    have before := (inside_ _ List.mem_cons_self).1
    have same : s.state_.loc = .init := le_antisymm before (loc_le begin_ coherent.located (Nat.zero_le _))
    exact Located.init (same ▸ coherent.located)
  · rintro ⟨zero, all⟩
    have same := first (zero untyped)
    rw [same] at row ⊢
    have whole : SpanTree.Row .init u.state_.loc [.node .init .init [], e] := ⟨le_refl _, le_refl _, row⟩
    have type_ : (SpanTree.node Loc.init Loc.init []).Nested := .node (le_refl _) nofun .nil nofun
    exact whole.nested_iff.mpr (List.forall_mem_cons.mpr ⟨type_, all⟩)

end Marks

end TokenStream

end Mygo

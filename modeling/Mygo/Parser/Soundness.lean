import Mygo.Parser.Backtrack
import Mygo.Parser.Grammar

namespace Mygo

open Parser

namespace Grammar

variable {name : Value → Prop} {α β : Type}

/-- What stays true of a sequence as tokens are taken off it. -/
structure Fine (name : Value → Prop) (ts : List Value) : Prop where
  followed : Followed name ts
  ended : Ended ts

theorem Fine.tail {v : Value} {ts : List Value} (h : Fine name (v :: ts)) (inside : v.type_ ≠ .Enf) :
    Fine name ts := by
  refine ⟨h.followed.2, ?_⟩
  have ended := h.ended
  rw [Ended, if_neg inside] at ended
  exact ended

def Spells (name : Value → Prop) (D : List Value → α → Prop) : Parse Tokens Err α → Prop :=
  Parse.Meets (fun a t => D t.rest a ∧ Fine name t.rest) (fun _ _ => True) True True

def Reads (name : Value → Prop) (D : List Value → List Value → α → Prop) (p : Parsing Tokens α) : Prop :=
  ∀ ts, Fine name ts → Spells name (D ts) (p ⟨ts⟩)

def Restores (name : Value → Prop) (D : List Value → List Value → α → Prop) (p : Parsing Tokens α) : Prop :=
  ∀ ts, Fine name ts →
    (p ⟨ts⟩).Meets (fun a t => D ts t.rest a ∧ Fine name t.rest) (fun _ t => t = ⟨ts⟩) True True

section Rules

variable {D : List Value → β → Prop} {C : List Value → List Value → α → Prop} {p : Parsing Tokens α}
variable {f : α → Parsing Tokens β} {ts : List Value} {T : TokenType}

theorem Reads.guard {q : Loc → Parsing Tokens α} (h : ∀ start, Reads name C (q start)) :
    Restores name C (guard q) :=
  fun ts fine => meets_guarded ((h .init ts fine).mono (fun _ _ => id) (fun _ _ _ => rfl) id id)

theorem Reads.bind (h : Reads name C p) (fine : Fine name ts)
    (hf : ∀ a ts', C ts ts' a → Fine name ts' → Spells name D (f a ⟨ts'⟩)) :
    Spells name D ((p >>= f) ⟨ts⟩) :=
  meets_bind (h ts fine) fun a t ⟨reads, fine'⟩ => hf a t.rest reads fine'

theorem Restores.bind {f : Except Err α → Parsing Tokens β} (h : Restores name C p) (fine : Fine name ts)
    (ok : ∀ a ts', C ts ts' a → Fine name ts' → Spells name D (f (.ok a) ⟨ts'⟩))
    (err : ∀ e, Spells name D (f (.error e) ⟨ts⟩)) : Spells name D ((attempt p >>= f) ⟨ts⟩) := by
  refine meets_bind (meets_attempt (h ts fine)) ?_
  rintro (e | a) t post
  · obtain rfl : t = ⟨ts⟩ := post
    exact err e
  · exact ok a t.rest post.1 post.2

theorem Reads.bind_sure {f : Except Err α → Parsing Tokens β} (h : Reads name C p) (sure : Sure p)
    (fine : Fine name ts) (ok : ∀ a ts', C ts ts' a → Fine name ts' → Spells name D (f (.ok a) ⟨ts'⟩)) :
    Spells name D ((attempt p >>= f) ⟨ts⟩) := by
  have reads := h ts fine
  have fails := sure ⟨ts⟩
  rw [run_bind, attempt]
  cases run : p ⟨ts⟩ with
  | ok a t =>
    rw [run] at reads
    exact ok a t.rest reads.1 reads.2
  | err e t =>
    rw [run] at fails
    exact fails.elim
  | abort => trivial
  | out_of_fuel => trivial

theorem spells_pure {b : β} (fine : Fine name ts) (h : D ts b) :
    Spells name D ((pure b : Parsing Tokens β) ⟨ts⟩) := ⟨h, fine⟩

theorem spells_located {g : Loc → β} (fine : Fine name ts) (h : ∀ l, D ts (g l)) :
    Spells name D ((do let l ← loc; pure (g l) : Parsing Tokens β) ⟨ts⟩) := ⟨h _, fine⟩

theorem spells_peek {f : Option Value → Parsing Tokens β}
    (h : ∀ v rest, ts = v :: rest → Spells name D (f (some v) ⟨ts⟩)) : Spells name D ((peek >>= f) ⟨ts⟩) := by
  cases ts with
  | nil => trivial
  | cons v rest => exact h v rest rfl

theorem spells_peeked {f : Value → Parsing Tokens β}
    (h : ∀ v rest, ts = v :: rest → Spells name D (f v ⟨ts⟩)) : Spells name D ((peeked >>= f) ⟨ts⟩) := by
  cases ts with
  | nil => trivial
  | cons v rest => exact h v rest rfl

theorem spells_peek_type {f : TokenType → Parsing Tokens β}
    (h : ∀ v rest, ts = v :: rest → Spells name D (f v.type_ ⟨ts⟩)) :
    Spells name D ((peek_type >>= f) ⟨ts⟩) := by
  cases ts with
  | nil => trivial
  | cons v rest => exact h v rest rfl

theorem spells_is_token {f : Bool → Parsing Tokens β}
    (yes : ∀ v rest, ts = v :: rest → v.type_ = T → Spells name D (f true ⟨ts⟩))
    (no : ∀ v rest, ts = v :: rest → v.type_ ≠ T → Spells name D (f false ⟨ts⟩)) :
    Spells name D ((is_token T >>= f) ⟨ts⟩) := by
  cases ts with
  | nil => trivial
  | cons v rest =>
    change Spells name D (f (decide (v.type_ = T)) ⟨v :: rest⟩)
    by_cases same : v.type_ = T
    · rw [decide_eq_true same]
      exact yes v rest rfl same
    · rw [decide_eq_false same]
      exact no v rest rfl same

theorem next_stays {v : Value} (last : v.type_ = .Enf) :
    (next : Parsing Tokens Unit) ⟨v :: ts⟩ = .ok () ⟨v :: ts⟩ := by
  simp only [next, Stream.Next, Tokens.Next, if_pos last]

theorem Fine.next {v : Value} (fine : Fine name (v :: ts)) (inside : v.type_ ≠ .Enf) :
    (next : Parsing Tokens Unit) ⟨v :: ts⟩ = .ok () ⟨ts⟩ := by
  have more : ts ≠ [] := by
    rintro rfl
    exact (fine.tail inside).ended
  simp only [Mygo.next, Stream.Next, Tokens.Next, if_neg inside, if_neg more]

theorem spells_next {v : Value} {f : Unit → Parsing Tokens β} (fine : Fine name (v :: ts))
    (inside : v.type_ ≠ .Enf) (h : Fine name ts → Spells name D (f () ⟨ts⟩)) :
    Spells name D ((next >>= f) ⟨v :: ts⟩) := by
  rw [bind_ok (fine.next inside)]
  exact h (fine.tail inside)

end Rules

abbrev Takes (name : Value → Prop) (phrase : α → Phrase) (p : Parsing Tokens α) : Prop :=
  Reads name (fun ts ts' a => Derives name (phrase a) ts ts') p

abbrev Sound (name : Value → Prop) (phrase : α → Phrase) (p : Parsing Tokens α) : Prop :=
  Restores name (fun ts ts' a => Derives name (phrase a) ts ts') p

theorem kind_inside {v : Value} {kind : TokenType → Bool} (is : kind v.type_ = true)
    (other : kind .Enf = false) : v.type_ ≠ .Enf := by
  intro enf
  rw [enf, other] at is
  cases is

theorem type_inside {v : Value} {T : TokenType} (is : v.type_ = T) (before : T ≠ .Enf) : v.type_ ≠ .Enf :=
  is ▸ before

section Expect

variable {D : List Value → β → Prop} {f : Value → Parsing Tokens β} {ts : List Value} {T : TokenType}

theorem spells_expect_with {error : String → Parsing Tokens Value} {null other : String}
    (fails : ∀ msg ts, ∃ e t, error msg ⟨ts⟩ = .err e t) (before : T ≠ .Enf) (fine : Fine name ts)
    (h : ∀ v rest, ts = v :: rest → v.type_ = T → Fine name rest → Spells name D (f v ⟨rest⟩)) :
    Spells name D ((expect_with error null other T >>= f) ⟨ts⟩) := by
  have reads : Reads name (fun ts ts' v => ts = v :: ts' ∧ v.type_ = T) (expect_with error null other T) := by
    intro ts fine
    refine spells_peek fun v rest same => spells_peeked fun w rest' same' => ?_
    subst same'
    split
    · next is => exact spells_next fine (type_inside is before) fun fine' => spells_pure fine' ⟨rfl, is⟩
    · obtain ⟨e, t, failed⟩ := fails other (w :: rest')
      rw [failed]
      trivial
  exact reads.bind fine fun v rest ⟨same, is⟩ => h v rest same is

theorem spells_expect (before : T ≠ .Enf) (fine : Fine name ts)
    (h : ∀ v rest, ts = v :: rest → v.type_ = T → Fine name rest → Spells name D (f v ⟨rest⟩)) :
    Spells name D ((expect_token T >>= f) ⟨ts⟩) :=
  spells_expect_with (fun _ _ => ⟨_, _, rfl⟩) before fine h

theorem spells_expect_fatal (before : T ≠ .Enf) (fine : Fine name ts)
    (h : ∀ v rest, ts = v :: rest → v.type_ = T → Fine name rest → Spells name D (f v ⟨rest⟩)) :
    Spells name D ((expect_token_fatal T >>= f) ⟨ts⟩) :=
  spells_expect_with (fun _ _ => ⟨_, _, rfl⟩) before fine h

theorem spells_expect_err {err : String} (before : T ≠ .Enf) (fine : Fine name ts)
    (h : ∀ v rest, ts = v :: rest → v.type_ = T → Fine name rest → Spells name D (f v ⟨rest⟩)) :
    Spells name D ((expect_token_err T err >>= f) ⟨ts⟩) :=
  spells_expect_with (fun _ _ => ⟨_, _, rfl⟩) before fine h

theorem spells_skip_once {f : Unit → Parsing Tokens β} (before : T ≠ .Enf) (fine : Fine name ts)
    (skipped : ∀ c rest, ts = c :: rest → c.type_ = T → Fine name rest → Spells name D (f () ⟨rest⟩))
    (kept : Spells name D (f () ⟨ts⟩)) : Spells name D ((skip_token_once T >>= f) ⟨ts⟩) := by
  have reads : Reads name (fun ts ts' _ => ts' = ts ∨ ∃ c, ts = c :: ts' ∧ c.type_ = T)
      (skip_token_once T : Parsing Tokens Unit) := by
    refine fun ts fine => spells_is_token (fun c rest same is => ?_) fun _ _ _ _ => spells_pure fine (.inl rfl)
    subst same
    have inside : c.type_ ≠ .Enf := type_inside is before
    change Spells name _ (next ⟨c :: rest⟩)
    rw [fine.next inside]
    exact ⟨.inr ⟨c, rfl, is⟩, fine.tail inside⟩
  refine reads.bind fine fun _ ts' found fine' => ?_
  rcases found with rfl | ⟨c, same, is⟩
  · exact kept
  · exact skipped c ts' same is fine'

theorem reads_lines (rounds : Nat) :
    Takes name (fun _ => .lines) (skip_token .Enl rounds : Parsing Tokens Unit) := by
  induction rounds with
  | zero => exact fun _ _ => trivial
  | succ rounds ih =>
    intro ts fine
    refine spells_is_token (fun v rest same is => ?_) fun v rest same _ => spells_pure fine .lines_nil
    subst same
    refine spells_next fine (type_inside is nofun) fun fine' => ?_
    exact (ih rest fine').mono (fun _ _ ⟨lines, fine⟩ => ⟨.lines_cons is lines, fine⟩) (fun _ _ => id) id id

end Expect

section Expressions

variable {expr : Parsing Tokens Expr} {rounds : Nat}

open Mygo.Expr

theorem sound_token : Sound name .token (parse_token : Parsing Tokens Expr) := by
  refine Reads.guard fun start ts fine => spells_peek fun v rest same => ?_
  subst same
  simp only
  split
  · next atomic =>
    refine spells_next fine (kind_inside atomic rfl) fun fine' => ?_
    exact spells_located fine' fun _ => .token atomic
  · trivial

theorem takes_args (h : Sound name .comparison expr) : Takes name .args (parse_args expr rounds) := by
  induction rounds with
  | zero => exact fun _ _ => trivial
  | succ rounds ih =>
    intro ts fine
    refine h.bind fine (fun e ts₁ derived fine₁ => ?_) fun _ => spells_pure fine .args_nil
    refine spells_is_token (fun v rest same is => ?_) fun v rest same _ => spells_pure fine₁ (.args_last derived)
    subst same
    refine spells_next fine₁ (type_inside is nofun) fun fine₂ => ?_
    exact ih.bind fine₂ fun es ts₃ derived' fine₃ => spells_pure fine₃ (.args_comma derived is derived')

theorem sound_call (h : Sound name .comparison expr) : Sound name .call (parse_funcall expr rounds) := by
  refine Reads.guard fun start ts fine => sound_token.bind fine (fun f ts₁ callee fine₁ => ?_) fun _ => trivial
  refine spells_expect nofun fine₁ fun o ts₂ same opened fine₂ => ?_
  subst same
  refine (takes_args h).bind fine₂ fun es ts₃ derived fine₃ => ?_
  refine spells_expect nofun fine₃ fun c ts₄ same closed fine₄ => ?_
  subst same
  exact spells_located fine₄ fun _ => .call callee opened derived closed

theorem sound_atom (h : Sound name .comparison expr) : Sound name .atom (parse_atomic expr rounds) := by
  refine Reads.guard fun start ts fine => (sound_call h).bind fine (fun e ts₁ derived fine₁ => ?_) fun _ => ?_
  · exact spells_located fine₁ fun _ => .atom_call derived
  · refine spells_peek_type fun v rest same => ?_
    subst same
    split
    · next minus =>
      refine spells_next fine (type_inside minus nofun) fun fine₁ => ?_
      refine sound_token.bind fine₁ (fun e ts₂ derived fine₂ => ?_) fun _ => trivial
      exact spells_located fine₂ fun _ => .atom_minus minus derived
    · refine sound_token.bind fine (fun e ts₁ derived fine₁ => ?_) fun _ => trivial
      exact spells_located fine₁ fun _ => .atom_token derived

theorem takes_operators {operand : Parsing Tokens Expr} {phrase : Expr → Phrase}
    {phrases : List TokenType → List Expr → Phrase} {is_op : TokenType → Bool} {msg : String}
    (before : is_op .Enf = false) (h : Sound name phrase operand)
    (nil : ∀ ts, Derives name (phrases [] []) ts ts)
    (cons : ∀ {o : Value} {e ops es ts ts₁ ts'}, is_op o.type_ = true → Derives name (phrase e) ts ts₁ →
      Derives name (phrases ops es) ts₁ ts' → Derives name (phrases (o.type_ :: ops) (e :: es)) (o :: ts) ts') :
    Reads name (fun ts ts' r => Derives name (phrases r.1 r.2) ts ts' ∧
      ∀ v rest, ts = v :: rest → is_op v.type_ = true → r.1 ≠ [])
      (parse_operators is_op operand msg rounds) := by
  induction rounds with
  | zero => exact fun _ _ => trivial
  | succ rounds ih =>
    refine fun ts fine => spells_peek_type fun v rest same => ?_
    subst same
    split
    · next op =>
      refine spells_next fine (kind_inside op before) fun fine₁ => ?_
      refine h.bind fine₁ (fun e ts₂ derived fine₂ => ?_) fun _ => trivial
      refine ih.bind fine₂ fun r ts₃ ⟨derived', _⟩ fine₃ => ?_
      exact spells_pure fine₃ ⟨cons op derived derived', fun _ _ _ _ => List.cons_ne_nil _ _⟩
    · next other =>
      refine spells_pure fine ⟨nil _, fun w rest' same op => ?_⟩
      cases same
      exact absurd op other

theorem sound_chain {operand : Parsing Tokens Expr} {phrase chain : Expr → Phrase}
    {phrases : List TokenType → List Expr → Phrase} {is_op : TokenType → Bool} {first_msg msg : String}
    (before : is_op .Enf = false) (h : Sound name phrase operand)
    (nil : ∀ ts, Derives name (phrases [] []) ts ts)
    (cons : ∀ {o : Value} {e ops es ts ts₁ ts'}, is_op o.type_ = true → Derives name (phrase e) ts ts₁ →
      Derives name (phrases ops es) ts₁ ts' → Derives name (phrases (o.type_ :: ops) (e :: es)) (o :: ts) ts')
    (one : ∀ {e ts ts' l r}, Derives name (phrase e) ts ts' → Derives name (chain (e.setLoc l r)) ts ts')
    (more : ∀ {e ops es ts ts₁ ts' l r}, Derives name (phrase e) ts ts₁ → Derives name (phrases ops es) ts₁ ts' →
      ops ≠ [] → Derives name (chain (.OPS l r ops (e :: es))) ts ts') :
    Sound name chain (parse_chain is_op operand first_msg msg rounds) := by
  refine Reads.guard fun start ts fine => h.bind fine (fun e ts₁ derived fine₁ => ?_) fun _ => trivial
  refine spells_peek_type fun v rest same => ?_
  subst same
  split
  · next op =>
    refine (takes_operators before h nil cons).bind fine₁ fun r ts₂ ⟨derived', operators⟩ fine₂ => ?_
    exact spells_located fine₂ fun _ => more derived derived' (operators v rest rfl op)
  · exact spells_located fine₁ fun _ => one derived

theorem sound_product (h : Sound name .comparison expr) : Sound name .product (parse_with_star expr rounds) :=
  sound_chain rfl (sound_atom h) (fun _ => .factors_nil) .factors_cons .product .star

theorem sound_sum (h : Sound name .comparison expr) : Sound name .sum (parse_with_plus expr rounds) :=
  sound_chain rfl (sound_product h) (fun _ => .summands_nil) .summands_cons .sum .plus

theorem sound_comparison (h : Sound name .comparison expr) :
    Sound name .comparison (parse_with_greater expr rounds) := by
  refine Reads.guard fun start ts fine => (sound_sum h).bind fine (fun a ts₁ derived fine₁ => ?_) fun _ => trivial
  refine spells_peek_type fun v rest same => ?_
  subst same
  split
  · next op =>
    refine spells_next fine₁ (kind_inside op rfl) fun fine₂ => ?_
    refine (sound_sum h).bind fine₂ (fun b ts₃ derived' fine₃ => ?_) fun _ => trivial
    exact spells_located fine₃ fun _ => .greater derived op derived'
  · exact spells_located fine₁ fun _ => .comparison derived

theorem sound_expr (rounds : Nat) : Sound name .comparison (Expr.parse rounds : Parsing Tokens Expr) := by
  induction rounds with
  | zero => exact fun _ _ => trivial
  | succ rounds ih => exact sound_comparison ih

end Expressions

section Types

variable (rounds : Nat)

theorem takes_fields (left : Nat) : Takes name .fields (Struct.parse_fields rounds left : Parsing Tokens _) := by
  induction left with
  | zero => exact fun _ _ => trivial
  | succ left ih =>
    refine fun ts fine => spells_peeked fun n rest same => ?_
    subst same
    split
    · next first =>
      refine spells_next fine (type_inside first nofun) fun fine₁ => spells_peeked fun t rest same => ?_
      subst same
      split
      · next second =>
        refine spells_next fine₁ (type_inside second nofun) fun fine₂ => ?_
        refine spells_expect nofun fine₂ fun e rest same line fine₃ => ?_
        subst same
        refine (reads_lines rounds).bind fine₃ fun _ ts₄ lines fine₄ => ?_
        refine ih.bind fine₄ fun fields ts₅ derived fine₅ => ?_
        exact spells_pure fine₅ (.fields_cons first second line lines derived)
      · trivial
    · exact spells_pure fine .fields_nil

theorem sound_struct : Sound name .struct (Struct.parse rounds : Parsing Tokens Struct) := by
  refine Reads.guard fun start ts fine => spells_expect nofun fine fun k ts₁ same keyword fine₁ => ?_
  subst same
  refine spells_expect nofun fine₁ fun o ts₂ same opened fine₂ => ?_
  subst same
  refine (reads_lines rounds).bind fine₂ fun _ ts₃ lines fine₃ => ?_
  refine (takes_fields rounds 10000).bind fine₃ fun fields ts₄ derived fine₄ => ?_
  refine spells_expect nofun fine₄ fun c ts₅ same closed fine₅ => ?_
  subst same
  exact spells_located fine₅ fun _ => .struct keyword opened lines derived closed

theorem reads_type : Reads name (fun ts ts' t => Derives name (.type t) ts ts' ∨
    ts' = ts ∧ t = ⟨.init, .init, false, none, []⟩ ∧ ∀ v rest, ts = v :: rest → v.type_ ≠ .Symbol)
    (VarType.parse rounds : Parsing Tokens VarType) := by
  intro ts fine
  change Spells name _ ((attempt (Struct.parse rounds) >>= _) ⟨ts⟩)
  refine (sound_struct rounds).bind fine (fun stct ts₁ derived fine₁ => ?_) fun _ => ?_
  · exact spells_located fine₁ fun _ => .inl (.type_struct derived)
  · refine spells_is_token (fun v rest same symbol => ?_) fun v rest same other => ?_
    · refine spells_peeked fun n rest' same' => ?_
      subst same'
      cases same
      exact spells_next fine (type_inside symbol nofun) fun fine₁ =>
        spells_located fine₁ fun _ => .inl (.type_name symbol)
    · refine ⟨.inr ⟨rfl, rfl, fun w rest' same' => ?_⟩, fine⟩
      cases same.symm.trans same'
      exact other

theorem sound_declaration : Sound name .declaration (Declaration.parse rounds : Parsing Tokens Declaration) := by
  refine Reads.guard fun start ts fine => spells_expect nofun fine fun k ts₁ same keyword fine₁ => ?_
  subst same
  refine spells_expect_fatal nofun fine₁ fun n ts₂ same symbol fine₂ => ?_
  subst same
  refine (reads_type rounds).bind_sure (sure_var_type rounds) fine₂ fun t ts₃ found fine₃ => ?_
  refine spells_expect nofun fine₃ fun a ts₄ same assign fine₄ => ?_
  subst same
  refine (sound_expr rounds).bind fine₄ (fun e ts₅ derived fine₅ => ?_) fun _ => trivial
  refine spells_located fine₅ fun _ => ?_
  rcases found with typed | ⟨same, rfl, -⟩
  · exact .declaration keyword symbol typed assign derived
  · cases same
    exact .untyped keyword symbol assign derived

theorem sound_assignment : Sound name .assignment (Assignment.parse rounds : Parsing Tokens Assignment) := by
  refine Reads.guard fun start ts fine => spells_expect nofun fine fun n ts₁ same symbol fine₁ => ?_
  subst same
  refine spells_expect nofun fine₁ fun a ts₂ same assign fine₂ => ?_
  subst same
  refine (sound_expr rounds).bind fine₂ (fun e ts₃ derived fine₃ => ?_) fun _ => trivial
  exact spells_located fine₃ fun _ => .assignment symbol assign derived

theorem takes_exprs (left : Nat) : Takes name .exprs (Return.parse_exprs rounds left : Parsing Tokens _) := by
  induction left with
  | zero => exact fun _ _ => trivial
  | succ left ih =>
    refine fun ts fine => (sound_expr rounds).bind fine (fun e ts₁ derived fine₁ => ?_) fun _ => ?_
    · exact ih.bind fine₁ fun es ts₂ derived' fine₂ => spells_pure fine₂ (.exprs_cons derived derived')
    · exact spells_pure fine .exprs_nil

theorem sound_return : Sound name .ret (Return.parse rounds : Parsing Tokens Return) := by
  refine Reads.guard fun start ts fine => spells_expect nofun fine fun k ts₁ same keyword fine₁ => ?_
  subst same
  refine (takes_exprs rounds 100).bind fine₁ fun es ts₂ derived fine₂ => ?_
  exact spells_located fine₂ fun _ => .ret keyword derived

theorem sound_typedef : Sound name .typedef (Typedef.parse rounds : Parsing Tokens Typedef) := by
  refine Reads.guard fun start ts fine => spells_expect nofun fine fun k ts₁ same keyword fine₁ => ?_
  subst same
  refine (reads_type rounds).bind_sure (sure_var_type rounds) fine₁ fun t ts₂ found fine₂ => ?_
  refine spells_peeked fun n rest same => ?_
  subst same
  split
  · next symbol =>
    refine spells_next fine₂ (type_inside symbol nofun) fun fine₃ => spells_located fine₃ fun _ => ?_
    rcases found with derived | ⟨same, -, other⟩
    · exact .typedef keyword derived symbol
    · exact absurd symbol (other n rest same.symm)
  · trivial

end Types

section Statements

variable {rounds : Nat} {block : Parsing Tokens Block}

theorem takes_params (left : Nat) : Takes name .params (Function.parse_args left : Parsing Tokens _) := by
  induction left with
  | zero => exact fun ts fine => spells_pure fine .params_nil
  | succ left ih =>
    refine fun ts fine => spells_peek_type fun v rest same => ?_
    split
    · refine spells_expect_fatal nofun fine fun n ts₁ same first fine₁ => ?_
      subst same
      refine spells_expect_fatal nofun fine₁ fun t ts₂ same second fine₂ => ?_
      subst same
      refine spells_skip_once nofun fine₂ (fun c ts₃ same comma fine₃ => ?_) ?_
      · subst same
        exact ih.bind fine₃ fun args ts₄ derived fine₄ =>
          spells_pure fine₄ (.params_comma first second comma derived)
      · exact ih.bind fine₂ fun args ts₃ derived fine₃ =>
          spells_pure fine₃ (.params_cons first second derived)
    · exact spells_pure fine .params_nil

theorem takes_returns (left : Nat) : Takes name .returns (Function.parse_returns left : Parsing Tokens _) := by
  induction left with
  | zero => exact fun _ _ => trivial
  | succ left ih =>
    refine fun ts fine => spells_is_token (fun v rest same symbol => ?_) fun v rest same _ => ?_
    · refine spells_peeked fun t rest' same' => ?_
      subst same'
      cases same
      refine spells_next fine (type_inside symbol nofun) fun fine₁ => ?_
      exact ih.bind fine₁ fun returns ts₂ derived fine₂ => spells_pure fine₂ (.returns_cons symbol derived)
    · exact spells_pure fine .returns_nil

/-- The token after `Func` is taken whatever it is. -/
theorem sound_function (h : Sound name .block block) : Sound name .stmt (Function.parse block rounds) := by
  refine Reads.guard fun start ts fine => spells_expect nofun fine fun k ts₁ same keyword fine₁ => ?_
  subst same
  refine spells_peeked fun n ts₂ same => ?_
  subst same
  obtain ⟨n', rest', same, named⟩ := fine.followed.1 keyword
  cases same
  by_cases last : n.type_ = .Enf
  · -- there the parenthesis is missing
    rw [bind_ok (next_stays last)]
    refine spells_expect_fatal nofun fine₁ fun o ts₃ same opened _ => ?_
    cases same
    cases last.symm.trans opened
  · refine spells_next fine₁ last fun fine₂ => spells_expect_fatal nofun fine₂ fun o ts₃ same opened fine₃ => ?_
    subst same
    refine (takes_params 1000).bind fine₃ fun args ts₄ params fine₄ => ?_
    refine spells_expect_fatal nofun fine₄ fun c ts₅ same closed fine₅ => ?_
    subst same
    refine (takes_returns 99).bind fine₅ fun returns ts₆ types fine₆ => ?_
    refine spells_expect_err nofun fine₆ fun b ts₇ same braced fine₇ => ?_
    subst same
    refine (reads_lines rounds).bind fine₇ fun _ ts₈ lines fine₈ => ?_
    refine h.bind fine₈ (fun body ts₉ derived fine₉ => ?_) fun _ => trivial
    refine spells_expect nofun fine₉ fun z rest same last fine' => ?_
    subst same
    exact spells_located fine' fun _ =>
      .stmt_function keyword named opened params closed types braced lines derived last

theorem takes_braced {msg : String} (h : Sound name .block block) :
    Takes name .braced (parse_braced block msg rounds) := by
  refine fun ts fine => spells_expect nofun fine fun o ts₁ same opened fine₁ => ?_
  subst same
  refine (reads_lines rounds).bind fine₁ fun _ ts₂ lines fine₂ => ?_
  refine h.bind fine₂ (fun b ts₃ derived fine₃ => ?_) fun _ => trivial
  refine spells_expect nofun fine₃ fun c ts₄ same closed fine₄ => ?_
  subst same
  exact spells_pure fine₄ (.braced opened lines derived closed)

theorem takes_branches (h : Sound name .block block) (left : Nat) :
    Takes name (fun r => .branches r.1 r.2) (If.parse_branches block rounds left) := by
  induction left with
  | zero => exact fun _ _ => trivial
  | succ left ih =>
    refine fun ts fine => (sound_expr rounds).bind fine (fun condition ts₁ derived fine₁ => ?_) fun _ => trivial
    refine (takes_braced h).bind fine₁ fun body ts₂ braced fine₂ => ?_
    refine spells_is_token (fun k rest same otherwise => ?_) fun k rest same _ => ?_
    · subst same
      refine spells_next fine₂ (type_inside otherwise nofun) fun fine₃ => ?_
      split
      · trivial
      · refine spells_is_token (fun i rest same again => ?_) fun i rest same _ => ?_
        · subst same
          refine spells_next fine₃ (type_inside again nofun) fun fine₄ => ?_
          refine ih.bind fine₄ fun r ts₅ derived' fine₅ => ?_
          exact spells_pure fine₅ (.branch_if derived braced otherwise again derived')
        · refine (takes_braced h).bind fine₃ fun tail ts₄ last fine₄ => ?_
          exact spells_pure fine₄ (.branch_else derived braced otherwise last)
    · exact spells_pure fine₂ (.branch derived braced)

theorem sound_if (h : Sound name .block block) : Sound name .stmt (If.parse block rounds) := by
  refine Reads.guard fun start ts fine => spells_expect nofun fine fun k ts₁ same keyword fine₁ => ?_
  subst same
  refine (takes_branches h 1000).bind fine₁ fun r ts₂ derived fine₂ => ?_
  exact spells_located fine₂ fun _ => .stmt_if keyword derived

theorem Restores.option {p : Parsing Tokens α} {phrase : α → Phrase} {phrases : Option α → Phrase}
    {D : List Value → β → Prop} {f : Except Err α → Parsing Tokens β} {ts : List Value}
    (h : Sound name phrase p) (fine : Fine name ts) (none : ∀ ts, Derives name (phrases none) ts ts)
    (some : ∀ {a ts ts'}, Derives name (phrase a) ts ts' → Derives name (phrases (some a)) ts ts')
    (hf : ∀ r ts', Derives name (phrases r.toOption) ts ts' → Fine name ts' → Spells name D (f r ⟨ts'⟩)) :
    Spells name D ((attempt p >>= f) ⟨ts⟩) :=
  h.bind fine (fun a ts' derived fine' => hf (.ok a) ts' (some derived) fine') fun e =>
    hf (.error e) ts (none ts) fine

theorem sound_for (h : Sound name .block block) : Sound name .stmt (For.parse block rounds) := by
  refine Reads.guard fun start ts fine => spells_expect nofun fine fun k ts₁ same keyword fine₁ => ?_
  subst same
  refine (sound_declaration rounds).option fine₁ (fun _ => .no_init) .init_stmt fun decl ts₂ init fine₂ => ?_
  refine spells_expect nofun fine₂ fun a ts₃ same first fine₃ => ?_
  subst same
  refine (sound_expr rounds).option fine₃ (fun _ => .no_cond) .finish_cond fun condition ts₄ finish fine₄ => ?_
  refine spells_expect nofun fine₄ fun b ts₅ same second fine₅ => ?_
  subst same
  refine (sound_assignment rounds).option fine₅ (fun _ => .no_step) .step_stmt fun asgm ts₆ step fine₆ => ?_
  refine (takes_braced h).bind fine₆ fun body ts₇ braced fine₇ => ?_
  exact spells_located fine₇ fun _ => .stmt_for keyword init first finish second step braced

theorem Restores.map {p : Parsing Tokens α} {phrase : α → Phrase} {phrase' : β → Phrase} {g : α → β}
    (h : Sound name phrase p)
    (hg : ∀ {a ts ts'}, Derives name (phrase a) ts ts' → Derives name (phrase' (g a)) ts ts') :
    Sound name phrase' (g <$> p) := by
  intro ts fine
  exact meets_bind (h ts fine) fun a t ⟨derived, fine'⟩ => ⟨hg derived, fine'⟩

theorem sound_funcs (h : Sound name .block block) :
    ∀ f ∈ Block.parse_funcs block rounds, Sound name .stmt f := by
  simp only [Block.parse_funcs, List.forall_mem_cons]
  exact ⟨(sound_declaration rounds).map .stmt_declaration, (sound_assignment rounds).map .stmt_assignment,
    (sound_expr rounds).map .stmt_expr, sound_if h, sound_function h, (sound_return rounds).map .stmt_return,
    sound_for h, (sound_typedef rounds).map .stmt_typedef, List.forall_mem_nil _⟩

theorem reads_first_of {fs : List (Parsing Tokens Node)} (h : ∀ f ∈ fs, Sound name .stmt f) :
    Reads name (fun ts ts' r => (r = none → ts' = ts) ∧ ∀ node, r = some node → Derives name (.stmt node) ts ts')
      (Block.first_of fs) := by
  induction fs with
  | nil => exact fun ts fine => spells_pure fine ⟨fun _ => rfl, nofun⟩
  | cons f fs ih =>
    obtain ⟨first, others⟩ := List.forall_mem_cons.mp h
    refine fun ts fine => first.bind fine (fun node ts₁ derived fine₁ => ?_) fun e => ?_
    · refine spells_pure fine₁ ⟨nofun, fun node' same => ?_⟩
      cases same
      exact derived
    · simp only
      split
      · trivial
      · exact ih others ts fine

theorem takes_stmts (h : Sound name .block block) (left : Nat) :
    Takes name .stmts (Block.parse_nodes block rounds left) := by
  induction left with
  | zero => exact fun _ _ => trivial
  | succ left ih =>
    refine fun ts fine => (reads_lines rounds).bind fine fun _ ts₁ lines fine₁ => ?_
    refine (reads_first_of (sound_funcs h)).bind fine₁ fun r ts₂ ⟨nothing, derived⟩ fine₂ => ?_
    cases r with
    | none =>
      obtain rfl := nothing rfl
      exact spells_pure fine₂ (.stmts_nil lines)
    | some node =>
      refine ih.bind fine₂ fun nodes ts₃ derived' fine₃ => ?_
      exact spells_pure fine₃ (.stmts_cons lines (derived node rfl) derived')

theorem sound_block (rounds : Nat) : Sound name .block (Block.parse rounds : Parsing Tokens Block) := by
  induction rounds with
  | zero => exact fun _ _ => trivial
  | succ rounds ih =>
    refine Reads.guard fun start ts fine => (takes_stmts ih 100000).bind fine fun nodes ts₁ derived fine₁ => ?_
    exact spells_located fine₁ fun _ => .block derived

end Statements

section Program

variable {ts : List Value} {ast : Root} {t : Tokens} {rounds : Nat}

theorem ends_expect {f : Value → Parsing Tokens α} {D : α → Prop} (ended : Ended ts)
    (h : ∀ e, ts = [e] → e.type_ = .Enf → (f e ⟨[e]⟩).Meets (fun a _ => D a) (fun _ _ => True) True True) :
    ((expect_token .Enf >>= f) ⟨ts⟩).Meets (fun a _ => D a) (fun _ _ => True) True True := by
  cases ts with
  | nil => exact ended.elim
  | cons e rest =>
    have at_token : (expect_token .Enf : Parsing Tokens Value) ⟨e :: rest⟩ =
        (if e.type_ = .Enf then next >>= fun _ => pure e else fail _ : Parsing Tokens Value) ⟨e :: rest⟩ := rfl
    by_cases last : e.type_ = .Enf
    · rw [Ended, if_pos last] at ended
      subst ended
      have stays : (expect_token .Enf : Parsing Tokens Value) ⟨[e]⟩ = .ok e ⟨[e]⟩ := by
        rw [at_token, if_pos last, bind_ok (next_stays last)]
        rfl
      rw [bind_ok stays]
      exact h e rfl last
    · rw [run_bind, at_token, if_neg last]
      trivial

/-- What is accepted is derived, with the names that the functions have. -/
theorem root_derives (followed : Followed name ts) (ended : Ended ts)
    (parsed : Root.parse rounds (⟨ts⟩ : Tokens) = .ok ast t) : Derives name (.root ast) ts [] := by
  have run : ((Root.parse rounds : Parsing Tokens Root) ⟨ts⟩).Meets
      (fun ast _ => Derives name (.root ast) ts []) (fun _ _ => True) True True := by
    refine meets_guarded ?_
    refine meets_bind (meets_attempt (sound_block rounds ts ⟨followed, ended⟩)) ?_
    rintro (e | block) ⟨ts₁⟩ post
    · trivial
    · refine meets_bind (reads_lines rounds ts₁ post.2) fun _ t₂ ⟨lines, fine₂⟩ => ?_
      refine ends_expect fine₂.ended fun e same last => ?_
      exact .root post.1 (same ▸ lines) last
  rw [parsed] at run
  exact run

theorem accepts_iff_named (ended : Ended ts) (parsed : Root.parse rounds (⟨ts⟩ : Tokens) = .ok ast t) :
    Accepts ast ts ↔ Followed (·.type_ = .Symbol) ts :=
  ⟨fun derived => derived.followed trivial, fun named => root_derives named ended parsed⟩

def named : List Value :=
  [.make .Func 4, .CreateSymbol 1 [102], .make .LParent 1, .CreateSymbol 1 [97],
    .CreateSymbol 3 [105, 110, 116], .make .RParent 1, .make .LBrace 1, .make .Return 6,
    .CreateSymbol 1 [97], .make .RBrace 1, .make .Enf 0]

theorem accepts_named : ∃ ast, Accepts ast named := by
  have accepted : (Root.parse 8 (⟨named⟩ : Tokens)).value.isSome := by decide +kernel
  match run : Root.parse 8 (⟨named⟩ : Tokens) with
  | .ok ast t => exact ⟨ast, (accepts_iff_named (by simp [named, Ended, Value.make, Value.CreateSymbol]) run).mpr
      (by simp [named, Followed, Value.make, Value.CreateSymbol])⟩
  | .err _ _ | .abort | .out_of_fuel => simp [run, Parse.value] at accepted

def unnamed : List Value :=
  [.make .Func 4, .CreateInt 1 5, .make .LParent 1, .make .RParent 1, .make .LBrace 1,
    .make .RBrace 1, .make .Enf 0]

/-- The number is taken for the name. -/
theorem unnamed_accepted : ∃ ast t, Root.parse 8 (⟨unnamed⟩ : Tokens) = .ok ast t ∧ ¬ Accepts ast unnamed := by
  have accepted : (Root.parse 8 (⟨unnamed⟩ : Tokens)).value.isSome := by decide +kernel
  match run : Root.parse 8 (⟨unnamed⟩ : Tokens) with
  | .ok ast t =>
    refine ⟨ast, t, rfl, fun derived => ?_⟩
    obtain ⟨n, rest, same, symbol⟩ := (derived.followed trivial).1 rfl
    cases same
    cases symbol
  | .err _ _ | .abort | .out_of_fuel => simp [run, Parse.value] at accepted

end Program

end Grammar

end Mygo

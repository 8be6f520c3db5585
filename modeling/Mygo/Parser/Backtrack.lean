import Mygo.Parser.Progress
import Mygo.Stream.Walk

namespace Mygo

open Parser

namespace TokenStream

def measure (src : Bytes) : Measure TokenStream where
  valid s := Coherent s ∧ s.src_ = src
  rest s := src.length - s.state_.pos

theorem counts_measure (src : Bytes) : Counts (measure src) where
  peeks := by
    rintro s v t ⟨coherent, rfl⟩ look
    cases here : token s.src_ s.state_.pos with
    | none => exact nomatch look.symm.trans (coherent.peek_none here)
    | some w =>
      cases look.symm.trans (coherent.peek here)
      refine ⟨⟨coherent_settled coherent.located here, rfl⟩, rfl, ?_⟩
      intro _ seen
      obtain rfl := Option.some.inj seen
      have kind : (if s.cache_key_ = s.state_.pos then spanned s.state_.loc w else w).type_ = w.type_ := by
        split
        · rfl
        · rfl
      have enf := token_enf here
      rw [kind, ne_eq, enf]
      simp only [measure]
      omega
  nexts := by
    rintro s t ⟨coherent, rfl⟩ move
    obtain ⟨-, -, -, -, coherent', same, -⟩ := coherent.next_cases move
    have pos := coherent.next_pos move
    refine ⟨⟨coherent', same⟩, ?_⟩
    simp only [measure]
    omega
  loads := by
    rintro s t ⟨coherent, rfl⟩ ⟨coherent', same⟩
    exact ⟨⟨coherent'.Load (same ▸ coherent.located), same⟩, rfl⟩

variable {src : Bytes} {p q : Nat} {l m : Loc} {v : Value} {vs ws : List Value}

theorem Tiles.between (h : Tiles src p l vs q m) {r : Nat} {n : Loc} (h' : Tiles src p l ws r n)
    (further : q < r) : ∃ v us, Tiles src q m (v :: us) r n := by
  induction h generalizing ws with
  | nil =>
    cases h' with
    | nil => exact absurd further (Nat.lt_irrefl _)
    | cons first rest => exact ⟨_, _, .cons first rest⟩
  | cons first rest ih =>
    cases h' with
    | nil => exact absurd rest.le (by omega)
    | cons first' rest' =>
      obtain rfl := Option.some.inj (first.symm.trans first')
      exact ih rest' further

end TokenStream

section Sure

variable {σ α : Type} [Stream σ]

theorem sure_peek : Sure (peek : Parsing σ (Option Value)) := by
  intro s
  rw [peek]
  cases Stream.Peek s with
  | none | some => trivial

theorem sure_peeked : Sure (peeked : Parsing σ Value) := by
  refine sure_peek.bind fun v => ?_
  cases v with
  | none => exact sure_crash
  | some w => exact sure_pure w

theorem sure_next : Sure (next : Parsing σ Unit) := by
  intro s
  rw [next]
  cases Stream.Next s with
  | none | some => trivial

theorem sure_is_token (T : TokenType) : Sure (is_token T : Parsing σ Bool) := by
  refine sure_peek.bind fun v => ?_
  cases v with
  | none => exact sure_pure false
  | some _ => exact sure_peeked.bind fun w => sure_pure _

theorem sure_located (g : Loc → α) : Sure (do let l ← loc; pure (g l) : Parsing σ α) :=
  (sure_read _).bind fun l => sure_pure (g l)

theorem sure_var_type (rounds : Nat) : Sure (VarType.parse rounds : Parsing σ VarType) := by
  intro s
  refine Sure.bind (p := attempt (Struct.parse rounds)) (sure_attempt _) ?_ s
  rintro (_ | stct)
  · refine (sure_is_token .Symbol).bind fun b => ?_
    split
    · refine sure_peeked.bind fun name => ?_
      exact sure_next.bind fun _ => sure_located _
    · exact fun _ => trivial
  · exact sure_located _

end Sure

/-- A failure leaves the state of the stream as it was. -/
def RollsBack {α : Type} (p : Parsing TokenStream α) : Prop :=
  ∀ s, (p s).Meets (fun _ _ => True) (fun _ t => t.state_ = s.state_) True True

theorem RollsBack.map {α β : Type} {p : Parsing TokenStream α} (h : RollsBack p) (g : α → β) :
    RollsBack (g <$> p) :=
  fun s => meets_bind (h s) fun _ _ _ => trivial

theorem rolls_guard {α : Type} (p : Loc → Parsing TokenStream α) : RollsBack (guard p) :=
  fun _ => meets_guarded (.always (fun _ _ => trivial) (fun _ _ => rfl) trivial trivial)

theorem rolls_spent {α : Type} : RollsBack (spent : Parsing TokenStream α) := fun _ => trivial

theorem rolls_var_type (rounds : Nat) : RollsBack (VarType.parse rounds) :=
  fun s => (sure_var_type rounds s).mono (fun _ _ => id) (fun _ _ => False.elim) id id

theorem rolls_greater (expr : Parsing TokenStream Expr) (rounds : Nat) :
    RollsBack (Expr.parse_with_greater expr rounds) :=
  rolls_guard _

theorem rolls_chain (is_op : TokenType → Bool) (operand : Parsing TokenStream Expr) (first_msg msg : String)
    (rounds : Nat) : RollsBack (Expr.parse_chain is_op operand first_msg msg rounds) :=
  rolls_guard _

theorem rolls_expr (rounds : Nat) : RollsBack (Expr.parse rounds) :=
  match rounds with
  | 0 => rolls_spent
  | _ + 1 => rolls_greater _ _

theorem rolls_block (rounds : Nat) : RollsBack (Block.parse rounds) :=
  match rounds with
  | 0 => rolls_spent
  | _ + 1 => rolls_guard _

inductive ParseFunction
  | Root | Block | Declaration | Assignment | Expr | parse_with_greater | parse_with_plus
  | parse_with_star | parse_atomic | parse_funcall | parse_token | If | For | Function | Return
  | VarType | Typedef | Struct

namespace ParseFunction

def run (rounds : Nat) : ParseFunction → Parsing TokenStream Unit
  | .Root => (fun _ => ()) <$> Root.parse rounds
  | .Block => (fun _ => ()) <$> Block.parse rounds
  | .Declaration => (fun _ => ()) <$> Declaration.parse rounds
  | .Assignment => (fun _ => ()) <$> Assignment.parse rounds
  | .Expr => (fun _ => ()) <$> Expr.parse rounds
  | .parse_with_greater => (fun _ => ()) <$> Expr.parse_with_greater (Expr.parse rounds) rounds
  | .parse_with_plus => (fun _ => ()) <$> Expr.parse_with_plus (Expr.parse rounds) rounds
  | .parse_with_star => (fun _ => ()) <$> Expr.parse_with_star (Expr.parse rounds) rounds
  | .parse_atomic => (fun _ => ()) <$> Expr.parse_atomic (Expr.parse rounds) rounds
  | .parse_funcall => (fun _ => ()) <$> Expr.parse_funcall (Expr.parse rounds) rounds
  | .parse_token => (fun _ => ()) <$> Expr.parse_token
  | .If => (fun _ => ()) <$> If.parse (Block.parse rounds) rounds
  | .For => (fun _ => ()) <$> For.parse (Block.parse rounds) rounds
  | .Function => (fun _ => ()) <$> Function.parse (Block.parse rounds) rounds
  | .Return => (fun _ => ()) <$> Return.parse rounds
  | .VarType => (fun _ => ()) <$> VarType.parse rounds
  | .Typedef => (fun _ => ()) <$> Typedef.parse rounds
  | .Struct => (fun _ => ()) <$> Struct.parse rounds

/-- The functions whose success takes a token. -/
def consumes (s : TokenStream) : ParseFunction → Prop
  | .Block | .VarType => False
  | .Root => s.state_.pos < s.src_.length
  | _ => True

theorem rolls_back (f : ParseFunction) (rounds : Nat) : RollsBack (f.run rounds) := by
  cases f with
  | VarType => exact (rolls_var_type rounds).map _
  | Expr => exact (rolls_expr rounds).map _
  | Block => exact (rolls_block rounds).map _
  | parse_with_plus | parse_with_star => exact (rolls_chain _ _ _ _ _).map _
  | Root | Declaration | Assignment | parse_with_greater | parse_atomic | parse_funcall | parse_token
  | If | For | Function | Return | Typedef | Struct =>
    exact (rolls_guard _).map _

open TokenStream

def takes : ParseFunction → Nat
  | .Root | .Block | .VarType => 0
  | _ => 1

theorem descends_run (src : Bytes) (f : ParseFunction) (rounds : Nat) :
    (measure src).Descends 0 0 f.takes (f.run rounds) := by
  have counts := counts_measure src
  have enough : 0 ≤ rounds := Nat.zero_le rounds
  have expr : (measure src).Descends 0 0 1 (Expr.parse rounds) := counts.descends_expr enough
  have block : (measure src).Descends 0 0 0 (Block.parse rounds) := counts.descends_block (Nat.zero_le _)
  cases f with
  | Root => exact (counts.descends_root (Nat.zero_le _)).map
  | Block => exact block.map
  | Declaration => exact (counts.descends_declaration enough).map
  | Assignment => exact (counts.descends_assignment enough).map
  | Expr => exact expr.map
  | parse_with_greater => exact (counts.descends_parse_with_greater expr enough).map
  | parse_with_plus => exact (counts.descends_parse_with_plus expr enough).map
  | parse_with_star => exact (counts.descends_parse_with_star expr enough).map
  | parse_atomic => exact (counts.descends_parse_atomic expr enough).map
  | parse_funcall => exact (counts.descends_parse_funcall expr enough).map
  | parse_token => exact counts.descends_parse_token.map
  | If => exact (counts.descends_if block enough).map
  | For => exact (counts.descends_for block enough).map
  | Function => exact (counts.descends_function block enough).map
  | Return => exact (counts.descends_return enough).map
  | VarType => exact (counts.descends_var_type enough).map
  | Typedef => exact (counts.descends_typedef enough).map
  | Struct => exact (counts.descends_struct enough).map

theorem consumes_moves {f : ParseFunction} {rounds : Nat} {s t : TokenStream} (coherent : s.Coherent)
    (h : f.run rounds s = .ok () t) (consumes : f.consumes s) : s.state_.pos < t.state_.pos := by
  have left := descends_run s.src_ f rounds s ⟨coherent, rfl⟩ (Nat.zero_le _)
  rw [h] at left
  have less : s.src_.length - t.state_.pos + f.takes ≤ s.src_.length - s.state_.pos := left.2
  cases f with
  | Block | VarType => exact consumes.elim
  | Root =>
    have inside : s.state_.pos < s.src_.length := consumes
    have ended : (run rounds .Root s).Meets (fun _ t => (measure s.src_).rest t = 0) (fun _ _ => True)
        True True :=
      meets_bind ((counts_measure s.src_).root_ends ⟨coherent, rfl⟩) fun _ _ => id
    rw [h] at ended
    have all : s.src_.length - t.state_.pos = 0 := ended
    omega
  | Declaration | Assignment | Expr | parse_with_greater | parse_with_plus | parse_with_star | parse_atomic
  | parse_funcall | parse_token | If | For | Function | Return | Typedef | Struct =>
    simp only [takes] at less
    omega

/-- A failure leaves the state of the stream as it was; a success keeps what has been read, and
where the function consumes it has moved on, past whole tokens. -/
theorem backtracks (f : ParseFunction) (rounds : Nat) {s : TokenStream} (coherent : s.Coherent) :
    (∀ e t, f.run rounds s = .err e t → t.state_ = s.state_) ∧
    ∀ t, f.run rounds s = .ok () t → t.Coherent ∧ t.src_ = s.src_ ∧ s.state_.pos ≤ t.state_.pos ∧
      (f.consumes s → s.state_.pos < t.state_.pos ∧ ∃ v vs,
        Tiles s.src_ s.state_.pos s.state_.loc (v :: vs) t.state_.pos t.state_.loc) := by
  constructor
  · intro e t h
    have rolls := rolls_back f rounds s
    rw [h] at rolls
    exact rolls
  · intro t h
    have left := descends_run s.src_ f rounds s ⟨coherent, rfl⟩ (Nat.zero_le _)
    rw [h] at left
    obtain ⟨⟨coherent', same⟩, taken⟩ := left
    have less : s.src_.length - t.state_.pos + f.takes ≤ s.src_.length - s.state_.pos := taken
    have start : s.state_.pos ≤ s.src_.length := coherent.located.within
    have within : t.state_.pos ≤ s.src_.length := same ▸ coherent'.located.within
    refine ⟨coherent', same, by omega, fun consumes => ?_⟩
    obtain ⟨vs, before⟩ := coherent.located
    obtain ⟨ws, whole⟩ := coherent'.located
    rw [same] at whole
    have further := consumes_moves coherent h consumes
    exact ⟨further, before.between whole further⟩

theorem backtracks_sample :
    (Expr.run 5 (TokenStream.init (bytes "f(1) "))).value = some () ∧
    ∀ t, Expr.run 5 (TokenStream.init (bytes "f(1) ")) = .ok () t → 0 < t.state_.pos ∧ ∃ v vs,
      Tiles (bytes "f(1) ") 0 .init (v :: vs) t.state_.pos t.state_.loc :=
  ⟨by decide +kernel, fun t h => ((backtracks .Expr 5 (coherent_init (bytes "f(1) "))).2 t h).2.2.2 trivial⟩

end ParseFunction

namespace TokenStream

variable {src : Bytes} {p : Nat} {l : Loc} {v : Value}

theorem skip_spaces_more {last : Value} {rounds : Nat} (here : token src p = some v)
    (enough : src.length - p < rounds) (more : Nat) :
    skip_spaces (rounds + more) (settled src p l last v) = skip_spaces rounds (settled src p l last v) := by
  induction rounds generalizing p l v with
  | zero => exact absurd enough (Nat.not_lt_zero _)
  | succ rounds ih =>
    rw [Nat.add_right_comm, skip_spaces, skip_spaces, skip_settled here]
    cases next : token src (p + v.len_) with
    | none => rfl
    | some w =>
      simp only [Option.map_some, Option.bind_eq_bind, Option.bind_some, reduceCtorEq, if_false, peeked_settled]
      by_cases space : w.type_ = .Space
      · have inside : p + v.len_ < src.length := by
          by_contra outside
          rw [token_end (Nat.le_of_not_lt outside)] at next
          cases next
          cases space
        have positive := (token_inside (by omega) here).2.1
        have again := @ih (p + v.len_) (after l v) w next (by omega)
        exact if_congr Iff.rfl again rfl
      · exact (if_neg space).trans (if_neg space).symm

/-- The front end ends: neither the parse functions nor the loop of `Next` reach a bound that is
above the length of the source. -/
structure Ends (src : Bytes) : Prop where
  parse : ∀ more, Root.parse (src.length + 2 + more) (init src) ≠ .out_of_fuel
  skip : ∀ p l last v more, token src p = some v →
    skip_spaces (src.length + 1 + more) (settled src p l last v) =
      skip_spaces (src.length + 1) (settled src p l last v)

theorem parse_ends (src : Bytes) : Ends src where
  parse more ends := by
    have enough : src.length + 1 ≤ src.length + 2 + more - 1 := by omega
    have left := (counts_measure src).descends_root enough (init src) ⟨coherent_init src, rfl⟩
      (Nat.zero_le _)
    rw [ends] at left
    have bound : src.length + 1 ≤ src.length - 0 := left
    omega
  skip p l last v more here := skip_spaces_more here (by omega) more

end TokenStream

end Mygo

import Mygo.Lexer

/-! Token streams: `TokenStream` of token_stream.h and token_stream.cpp over the bytes of a source,
and the stream of a token sequence.  `none` is the access to a disengaged optional. -/

namespace Mygo

/-- What the parse functions use of a stream. -/
class Stream (σ : Type) where
  Peek : σ → Option (Option Value × σ)
  Next : σ → Option σ
  loc : σ → Loc
  /-- `Load s saved` gives `s` the state of `saved`. -/
  Load : σ → σ → σ

structure TokenStream.State where
  pos : Nat
  loc : Loc
  last_tk : Value

structure TokenStream where
  cache_ : Option Value
  cache_key_ : Int
  src_ : Bytes
  state_ : TokenStream.State

namespace TokenStream

def init (src : Bytes) : TokenStream := ⟨none, -1, src, ⟨0, .init, .make .Enf 0⟩⟩

def spanned (loc : Loc) (v : Value) : Value :=
  { v with
    start := loc
    end_ := if v.type_ = .Enl then ⟨loc.line + 1, 1⟩ else ⟨loc.line, loc.coloum + v.len_⟩ }

/-- The first call at a position returns the token without its span. -/
def Peek (s : TokenStream) : Option (Option Value × TokenStream) :=
  if s.cache_key_ = s.state_.pos then some (s.cache_, s)
  else match Value.FromChars (s.src_.drop s.state_.pos) with
    | none => none
    | some v =>
      some (some v, { s with
        cache_ := some (spanned s.state_.loc v)
        cache_key_ := s.state_.pos })

/-- `Peek()->`, the access to what `Peek` returned. -/
def peeked (s : TokenStream) : Option (Value × TokenStream) :=
  match s.Peek with
  | some (some v, s) => some (v, s)
  | _ => none

def skip (s : TokenStream) : Option (Option Value × TokenStream) := do
  let (v, s) ← s.peeked
  let s := { s with state_ := { s.state_ with loc := v.end_ } }
  let (v, s) ← s.peeked
  let s := { s with state_ := { s.state_ with pos := s.state_.pos + v.len_ } }
  let (_, s) ← s.Peek
  s.Peek

/-- The loop of `Next`; it leaves at least one byte behind in each round. -/
def skip_spaces : Nat → TokenStream → Option TokenStream
  | 0, s => some s
  | rounds + 1, s => do
    let (v, s) ← s.skip
    if v = none then some s
    else
      let (v, s) ← s.peeked
      if v.type_ = .Space then skip_spaces rounds s else some s

def Next (s : TokenStream) : Option TokenStream := do
  let (v, s) ← s.Peek
  if v = none then skip_spaces (s.src_.length + 1) s
  else
    let (v, s) ← s.peeked
    skip_spaces (s.src_.length + 1) { s with state_ := { s.state_ with last_tk := v } }

def Load (s : TokenStream) (state : State) : TokenStream := { s with state_ := state }

instance : Stream TokenStream where
  Peek := Peek
  Next := Next
  loc s := s.state_.loc
  Load s saved := s.Load saved.state_

end TokenStream

/-- The tokens from the current one on, without spaces.  A sequence that does not end with
`Enf` stops where the lexer recognises nothing. -/
structure Tokens where
  rest : List Value
  deriving DecidableEq

namespace Tokens

def Peek (s : Tokens) : Option (Option Value × Tokens) :=
  match s.rest with
  | [] => none
  | t :: _ => some (some t, s)

def Next (s : Tokens) : Option Tokens :=
  match s.rest with
  | [] => none
  | t :: ts => if t.type_ = .Enf then some s else if ts = [] then none else some ⟨ts⟩

instance : Stream Tokens where
  Peek := Peek
  Next := Next
  loc _ := .init
  Load _ saved := saved

end Tokens

end Mygo

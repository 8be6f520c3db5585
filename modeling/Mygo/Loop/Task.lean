import Mathlib.Data.List.Basic

namespace Mygo

structure Task.State where
  internal_ : Int
  deriving DecidableEq

namespace Task.State

def S0 : State := ⟨0⟩

def Error : State := ⟨-2⟩

def Finished : State := ⟨-1⟩

def isS0 (s : State) : Bool := s.internal_ == 0

def isS1 (s : State) : Bool := s.internal_ == 1

def isS2 (s : State) : Bool := s.internal_ == 2

def isS3 (s : State) : Bool := s.internal_ == 3

def isError (s : State) : Bool := s.internal_ < -1

def isFinished (s : State) : Bool := s.internal_ == -1

def isNotFinished (s : State) : Bool := 0 ≤ s.internal_

/-- `none` is the failed assertion. -/
def next (s : State) : Option State :=
  if 0 ≤ s.internal_ then some ⟨s.internal_ + 1⟩ else none

end Task.State

/-- `RunOnce::run` on the member `state_`: whether `func_` is called, and the returned state,
which is also the new member.  `none` is the failed assertion. -/
def RunOnce.run (state_ : Task.State) : Option (Bool × Task.State) :=
  if state_.isFinished then some (false, state_)
  else if state_.isS0 then some (true, .Finished)
  else none

def RunOnce.Returns : Task.State → List Task.State → Prop
  | _, [] => True
  | state_, s :: states => (∃ called, RunOnce.run state_ = some (called, s)) ∧ RunOnce.Returns s states

end Mygo

import LuaBackend.Tree.Basic

/-!
# Temporaries

A temporary is a variable whose number comes from the range that front
ends leave free, so it never meets a variable of the program whatever
that one is called. A supply hands temporaries out one after the other
and says how many it has handed out.
-/

namespace LuaBackend

/-- The name of a temporary, counted from the first one. -/
def tempName (id : UInt32) : String := "_hx_t" ++ toString (id - tempBase)

/-- Why a supply of temporaries refuses. -/
inductive TempFault where
  /-- The first number lies outside the range kept for temporaries. -/
  | outsideRange
  /-- Every number has been handed out. -/
  | exhausted
deriving DecidableEq, Inhabited

/-- The wording of a refusal. -/
def TempFault.message : TempFault → String
  | outsideRange => "temporary ids must start inside the reserved range"
  | exhausted => "temporary id range exhausted"

/-- A supply of temporaries: the number of the first one, and of the next
one to hand out. -/
structure TempSupply where
  first : Nat
  next : Nat
deriving DecidableEq, Inhabited

namespace TempSupply

/-- A supply from a given number on. -/
def startingAt (first : UInt32) : Except TempFault TempSupply :=
  if first < tempBase then .error .outsideRange
  else .ok ⟨first.toNat, first.toNat⟩

/-- The supply of all temporaries. -/
def all : TempSupply := ⟨tempBase.toNat, tempBase.toNat⟩

/-- Hands out the next temporary. One without a type is dynamic. -/
def fresh (supply : TempSupply) (type : Ty) : Except TempFault (Var × TempSupply) :=
  if UInt32.size ≤ supply.next then .error .exhausted
  else
    let id := UInt32.ofNat supply.next
    let type := match type with
      | .untyped => .dynamic
      | ty => ty
    .ok (⟨id, tempName id, type⟩, ⟨supply.first, supply.next + 1⟩)

/-- Starts again with the first temporary. -/
def reset (supply : TempSupply) : TempSupply := ⟨supply.first, supply.first⟩

/-- How many temporaries have been handed out since the start. -/
def count (supply : TempSupply) : Nat := supply.next - supply.first

end TempSupply

end LuaBackend

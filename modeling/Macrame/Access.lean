import Mathlib.Data.List.Basic

namespace Macrame

-- Identities. A pipe is named by its address, so the order on `PipeId` is the
-- canonical acquisition order; the guarded instance behind it shares the name.
abbrev PipeId := Nat
abbrev BlockId := Nat
abbrev HoldId := Nat
abbrev TokenId := Nat

inductive Access where
  | readOnly
  | readWrite
  deriving DecidableEq, Repr

-- A held mode serves a wanted one: any mode serves a read, only a write a write.
def Access.covers : (held wanted : Access) → Bool
  | .readWrite,_ => true
  | .readOnly,.readOnly => true
  | .readOnly,.readWrite => false

end Macrame

import HelixCluster.Lib.GoString

/-!
# Two processes

The concrete runs of this development are runs of two processes with names of one byte.
-/

namespace HelixCluster

inductive Site where
  | a
  | b
  deriving DecidableEq

def twoNames : Site → Str
  | .a => [97]
  | .b => [98]

theorem twoNames_injective : Function.Injective twoNames := by
  intro i j h
  cases i <;> cases j <;> simp_all [twoNames]

end HelixCluster

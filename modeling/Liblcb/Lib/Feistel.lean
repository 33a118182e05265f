import Mathlib.Data.Prod.Basic
import Mathlib.Data.List.Basic

/-!
# Feistel networks

A network whose halves swap names each round: round `k` mixes `f k` of one half into the other and
the halves change places.  Run on its own output with the halves exchanged and the keys in reverse
order, it leads back, whatever the round function is.
-/

namespace Feistel

variable {α κ : Type} {op : α → α → α} {f : κ → α → α}

def round (op : α → α → α) (f : κ → α → α) (p : α × α) (k : κ) : α × α := (op p.2 (f k p.1), p.1)

def rounds (op : α → α → α) (f : κ → α → α) (ks : List κ) (p : α × α) : α × α :=
  ks.foldl (round op f) p

end Feistel

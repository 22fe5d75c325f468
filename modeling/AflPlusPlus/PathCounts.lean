/-
Path coverage: the path counts against exact ones.

The analysis adds up its counts in 64 bits and compares the sum with the cap.  Below 2^64 the
counts are exact; a larger one can pass for a few paths.
-/

import AflPlusPlus.PathCoverage

namespace AflPlusPlus.PathCoverage

open Machine List

section

variable (sum : List Nat → Nat) (level : Nat) (cfg : Cfg) (simplify : Bool)

end

section Lists

variable {Block : Type} {succs : List Block} {count other : Block → Nat}

end Lists

variable {level : Nat} {cfg : Cfg} {simplify : Bool} {block : cfg.Block}

section Entry

variable {settings : Settings} {cfg : Cfg}

end Entry

end AflPlusPlus.PathCoverage

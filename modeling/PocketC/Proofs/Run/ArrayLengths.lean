/-
  PocketC.Proofs.Run.ArrayLengths

  The lengths of arrays that variables hold.  Elements are stored in place, and an array
  that is stored in a variable with an array is filled up to its length.  Values carry
  their types and variables do not: a variable with an array may be assigned a number, and
  then it may be assigned an array of any length.  Nothing else changes a length.
-/

import PocketC.Proofs.Run.Moments

namespace PocketC

open Exec ScopeTree

namespace Exec

end Exec

end PocketC

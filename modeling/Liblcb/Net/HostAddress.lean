import Liblcb.Lib.KeyedList
import Liblcb.Net.SockAddr

/-!
# Host addresses

The set of addresses of `net/host_address.h`.  An address that is given without a port is compared as
it stands and gets the default port of the host afterwards, so it is not found when it is added again.
-/

namespace Net

open Mem KeyedList

section

variable {port : BitVec 16} {given : List SockAddr} {a s : SockAddr}

end

end Net

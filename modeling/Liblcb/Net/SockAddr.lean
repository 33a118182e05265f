import Liblcb.Utils.Wire

/-!
# Socket addresses

The address, the port and their comparison of `net/socket_address.c`.  A port is kept in host order.
-/

namespace Net

open Mem

/-- `sockaddr_storage_t`. -/
inductive SockAddr where
  | unix (path : List Byte)
  | inet (addr : BitVec 32) (port : BitVec 16)
  | inet6 (addr : BitVec 128) (port : BitVec 16)
  /-- any other family -/
  | other
deriving DecidableEq, Repr

namespace SockAddr

/-- `AF_INET` or `AF_INET6`. -/
def IsInet : SockAddr → Prop
  | .inet _ _ | .inet6 _ _ => True
  | _ => False

end SockAddr

def saPortGet : SockAddr → BitVec 16
  | .inet _ port | .inet6 _ port => port
  | _ => 0

def saPortSet : SockAddr → BitVec 16 → SockAddr
  | .inet addr _, port => .inet addr port
  | .inet6 addr _, port => .inet6 addr port
  | a, _ => a

end Net

import Chino.Io.OpenCall

/-!
# What the drivers record in a file

`fast_open`, `socket` and `close` of the devices that record something: `host_fs_device`,
`host_socket_device` and `lwip_socket_device`.  The host and the network stack are parameters.

`OpenDriver.Releases` is the part of `failed_leavesNothing_iff` in `Chino.Io.OpenFailure` that is up
to the driver: whatever `fast_open` or `socket` has recorded in the file, its `close` gives back,
once.  For each driver it is proved or refuted here, for all answers of the host.

`host_fs_device` records a `HANDLE` and closes it, `host_socket_device` a `SOCKET` and closes it.
`lwip_socket_device` records a `netconn` and inherits the `close` of `device`, which does nothing.
-/

set_option autoImplicit false

namespace Chino

/-- A driver whose `close` gives back what the file holds, once. -/
def OpenDriver.Releases (d : OpenDriver) : Prop := ∀ r, (d.close (some r)).count r = 1

namespace Device

/-- `device::fast_open`; `device::process_io` calls it once more. -/
def fastOpen (path : Text) (_ : CreateDisposition) : OpenAnswer :=
  if path = [] then .ok none else .err .invalidPath

/-- `device::close` -/
def close (_ : Option Resource) : List Resource := []

end Device

/-- `host_fs_device`, where `createFile` is `CreateFileA` in the base directory. -/
def hostFs (createFile : Text → CreateDisposition → Option Resource) : OpenDriver :=
  let fastOpen path disposition :=
    if path = [] then .err .invalidPath
    else
      match createFile path disposition with
      | some handle => .ok (some handle)
      | none => .err .notFound
  { fastOpen := fastOpen
    slowOpen := fastOpen
    socket := none
    close := Option.toList }

/-- `host_socket_device`, where `wsaSocket` is `WSASocket` with the error it leaves. -/
def hostSocket (wsaSocket : ℤ → ℤ → ℤ → Except ErrorCode Resource) : OpenDriver where
  fastOpen := Device.fastOpen
  slowOpen := Device.fastOpen
  socket := some fun domain type protocol ↦
    match wsaSocket domain type protocol with
    | .ok sock => .ok (some sock)
    | .error e => .err e
  close := Option.toList

/-! ## lwIP -/

/-- `netconn_type` -/
inductive NetconnType where
  | tcp
  | udp
  | raw
deriving DecidableEq

/-- `AF_INET` -/
def afInet : ℤ := 2

/-- `SOCK_STREAM` -/
def sockStream : ℤ := 1

/-- `SOCK_DGRAM` -/
def sockDgram : ℤ := 2

/-- `SOCK_RAW` -/
def sockRaw : ℤ := 3

/-- `IPPROTO_ICMP`, which is `IP_PROTO_ICMP` too. -/
def ipProtoIcmp : ℤ := 1

/-- The type and the protocol of the connection that the arguments of `socket` stand for. -/
def netconnOf (domain type protocol : ℤ) : Except ErrorCode (NetconnType × ℤ) :=
  if domain ≠ afInet then .error .invalidArgument
  else if type = sockStream then .ok (.tcp, 0)
  else if type = sockDgram then .ok (.udp, 0)
  else if type = sockRaw then
    if protocol = ipProtoIcmp then .ok (.raw, ipProtoIcmp) else .error .invalidArgument
  else .error .invalidArgument

/-- `lwip_socket_device`, where `netconnNew` is `netconn_new_with_proto_and_callback`. -/
def lwipSocket (netconnNew : NetconnType → ℤ → Option Resource) : OpenDriver where
  fastOpen := Device.fastOpen
  slowOpen := Device.fastOpen
  socket := some fun domain type protocol ↦
    match netconnOf domain type protocol with
    | .error e => .err e
    | .ok (netconnType, netconnProto) =>
      match netconnNew netconnType netconnProto with
      | some netconn => .ok (some netconn)
      | none => .err .outOfMemory
  close := Device.close

theorem hostFs_releases (createFile : Text → CreateDisposition → Option Resource) :
    (hostFs createFile).Releases := fun _ ↦ List.count_singleton_self ..

theorem hostSocket_releases (wsaSocket : ℤ → ℤ → ℤ → Except ErrorCode Resource) :
    (hostSocket wsaSocket).Releases := fun _ ↦ List.count_singleton_self ..

/-- `lwip_socket_device` has no `close` of its own, so it gives back nothing. -/
theorem not_lwipSocket_releases (netconnNew : NetconnType → ℤ → Option Resource) :
    ¬ (lwipSocket netconnNew).Releases := fun h ↦ Nat.zero_ne_one (h 0)

end Chino

import Chino.ErrorCode
import Chino.Library.Run
import Chino.Ob.Path

/-!
# Receiving datagrams

`lwip_socket_device::recvfrom`, on `lwip_recvfrom_udp_raw`.  A datagram that was peeked at stays in
`lastdata` and is what the next call gets; any other comes from `netconn_recv_udp_raw_netbuf_flags`.
A call that does not peek deletes the datagram, whatever its buffer has room for.

The library below is a parameter (`Netconn`): what it hands out and what `pbuf_copy_partial` copies,
with `Netconn.Documented` for what is relied on.  `lastdata` starts as null, which is what the bytes
of a new file are.  `fromAddr` is the sender as a `sockaddr`, which `IPADDR_PORT_TO_SOCKADDR` has
made.

`datagrams_in_order` compares this with a queue of datagrams in front of the network (`Queue`).  A
call that finds the queue empty asks the network, and fails if that refuses; any other gets the
first datagram, and takes it out unless it peeks.  So a call cannot fail while a datagram waits, and
what comes into the queue is what the network has handed out, in its order.  `received` and
`deleted` are not in the code; they record the datagrams that came from the library, and those that
were given back to it.

## The proof

`answer` is what a call is to get of the datagram it looks at, in terms of its bytes: as many as the
buffer has room for, the sender if the caller asked for one, cut to the length that it gave, and the
number of bytes.  `answer_eq` compares it with what `lwip_recvfrom_udp_raw` does: the loop over the
buffers, with its 16-bit offsets and lengths (`copyIovs_spec`), and `lwip_sock_make_addr`.

A call is then one of three kinds: there is a datagram in `lastdata` (`recvfrom_some`); there is
none and the network hands one out; or it refuses (`recvfrom_none`).  `Delivers` has a constructor
for each of the three and no other, and the third one asks that the queue is empty and that the
network, in the state in which it is asked, has an error to give.
-/

set_option autoImplicit false

namespace Chino

/-! ## The library below -/

/-- `netconn` and `pbuf` functions, for a state of the network, datagrams and error codes. -/
structure Netconn (N B E : Type) where
  /-- `netconn_recv_udp_raw_netbuf_flags`, with or without `NETCONN_DONTBLOCK`. -/
  recv : N → Bool → Except E B × N
  /-- `buf->p->tot_len` -/
  totLen : B → ℕ
  /-- What `pbuf_copy_partial` copies, for a length and an offset. -/
  copyPartial : B → ℕ → ℕ → List Byte
  fromAddr : B → List Byte
  /-- The bytes of a datagram. -/
  payload : B → List Byte

/-- The length is that of the bytes and fits its type, and what lies within it is copied. -/
structure Netconn.Documented {N B E : Type} (net : Netconn N B E) : Prop where
  totLen : ∀ b, net.totLen b = (net.payload b).length
  lt : ∀ b, net.totLen b < 2 ^ 16
  copyPartial : ∀ b len offset, offset + len ≤ net.totLen b →
    net.copyPartial b len offset = ((net.payload b).drop offset).take len

namespace Datagrams

variable {N B E : Type} (net : Netconn N B E)

/-! ## The socket -/

/-- The conversion to `u16_t`. -/
def u16 (n : ℕ) : ℕ := n % 2 ^ 16

/-- `SSIZE_MAX` -/
def ssizeMax : ℕ := 2 ^ 63 - 1

/-- A call of `recvfrom`: the size of its buffer, its flags, and `*fromlen` if `from` is given. -/
structure RecvCall where
  len : ℕ
  peek : Bool
  dontWait : Bool
  fromlen : Option ℕ
deriving DecidableEq

/-- What a call has written and returns: the buffer, `from` with `*fromlen`, and the size. -/
structure Received where
  mem : List Byte
  from? : Option (List Byte × ℕ)
  size : ℕ
deriving DecidableEq

/-- `lwip_sock`, the network, and what is recorded. -/
structure LwipSock (N B : Type) where
  lastdata : Option B
  network : N
  received : List B
  deleted : List B

/-- The loop of `lwip_recvfrom_udp_raw` over the buffers: what each of them gets, and `copied`. -/
def copyIovs (buf : B) (buflen : ℕ) : List ℕ → ℕ → List (List Byte) × ℕ
  | [], copied => ([], copied)
  | iovLen :: iovs, copied =>
    if copied < buflen then
      let lenLeft := u16 (buflen - copied)
      let copylen := if iovLen > lenLeft then lenLeft else u16 iovLen
      let (rest, last) := copyIovs buf buflen iovs (u16 (copied + copylen))
      (net.copyPartial buf copylen copied :: rest, last)
    else ([], copied)

/-- `lwip_sock_make_addr`: the address as far as there is room for it, and its length. -/
def makeAddr (addr : List Byte) (fromlen : ℕ) : List Byte × ℕ :=
  let fromlen := if fromlen < addr.length then fromlen
    else if fromlen > addr.length then addr.length else fromlen
  (addr.take fromlen, fromlen)

/-- `lwip_recvfrom_udp_raw`: what the buffers get, the sender, and `*datagram_len`. -/
def recvfromUdpRaw (s : LwipSock N B) (peek dontWait : Bool) (iovs : List ℕ) (namelen : Option ℕ) :
    Except E (List (List Byte) × Option (List Byte × ℕ) × ℕ) × LwipSock N B :=
  let (buf, s) := match s.lastdata with
    | some buf => (Except.ok buf, s)
    | none => match net.recv s.network dontWait with
      | (.error e, network) => (.error e, { s with network := network })
      | (.ok buf, network) => (.ok buf, { s with
          network := network
          lastdata := some buf
          received := s.received ++ [buf] })
  match buf with
  | .error e => (.error e, s)
  | .ok buf =>
    let buflen := net.totLen buf
    let (mem, _) := copyIovs net buf buflen iovs 0
    let name := namelen.map fun n ↦ if n = 0 then ([], 0) else makeAddr (net.fromAddr buf) n
    let s := if peek then s else { s with lastdata := none, deleted := s.deleted ++ [buf] }
    (.ok (mem, name, buflen), s)

/-- `lwip_socket_device::recvfrom` -/
def recvfrom (s : LwipSock N B) (c : RecvCall) : Except ErrorCode Received × LwipSock N B :=
  match recvfromUdpRaw net s c.peek c.dontWait [c.len] c.fromlen with
  | (.error _, s) => (.error .ioError, s)
  | (.ok (mem, name, datagramLen), s) =>
    (.ok ⟨mem.flatten, name, min (min c.len datagramLen) ssizeMax⟩, s)

/-- A socket with the calls it has answered. -/
structure Socket (N B : Type) where
  sock : LwipSock N B
  log : List (RecvCall × Except ErrorCode Received)

/-- A call is answered, and goes to the log. -/
def next (s : Socket N B) (c : RecvCall) : Option (Socket N B) :=
  some ⟨(recvfrom net s.sock c).2, s.log ++ [(c, (recvfrom net s.sock c).1)]⟩

/-- The machine that starts with a network. -/
def machine (network : N) : Machine (Socket N B) RecvCall where
  init := ⟨⟨none, network, [], []⟩, []⟩
  next := next net

/-! ## A queue of datagrams -/

/-- What a call is to get of a datagram. -/
def answer (c : RecvCall) (b : B) : Received where
  mem := (net.payload b).take c.len
  from? := c.fromlen.map fun n ↦
    ((net.fromAddr b).take (min n (net.fromAddr b).length), min n (net.fromAddr b).length)
  size := min c.len (net.payload b).length

/-- A queue in front of a network, with the datagrams that have come so far and those left in it. -/
structure Queue (N B : Type) where
  network : N
  received : List B
  left : List B

/-- The datagram that a call looks at, which may come for it. -/
inductive Queue.Offers : Queue N B → Bool → B → Queue N B → Prop
  | waiting {q : Queue N B} {b : B} {rest : List B} {dontWait : Bool} (h : q.left = b :: rest) :
      Offers q dontWait b q
  | comes {q : Queue N B} {b : B} {network : N} {dontWait : Bool} (h : q.left = [])
      (hn : net.recv q.network dontWait = (.ok b, network)) :
      Offers q dontWait b ⟨network, q.received ++ [b], [b]⟩

/-- The answers of a queue in front of the network, and the queue after them: a call gets the first
datagram, and takes it out unless it peeks, or fails if there is none and the network refuses. -/
inductive Delivers (network : N) : List (RecvCall × Except ErrorCode Received) → Queue N B → Prop
  | empty : Delivers network [] ⟨network, [], []⟩
  | refuses {log : List (RecvCall × Except ErrorCode Received)} {q : Queue N B} {c : RecvCall}
      {e : E} {network' : N} (h : Delivers network log q) (hleft : q.left = [])
      (hn : net.recv q.network c.dontWait = (.error e, network')) :
      Delivers network (log ++ [(c, .error .ioError)]) { q with network := network' }
  | peeks {log : List (RecvCall × Except ErrorCode Received)} {q q' : Queue N B} {c : RecvCall}
    {b : B}
      (h : Delivers network log q) (ho : q.Offers net c.dontWait b q') (hc : c.peek = true) :
      Delivers network (log ++ [(c, .ok (answer net c b))]) q'
  | takes {log : List (RecvCall × Except ErrorCode Received)} {q q' : Queue N B} {c : RecvCall}
    {b : B}
      (h : Delivers network log q) (ho : q.Offers net c.dontWait b q') (hc : c.peek = false) :
      Delivers network (log ++ [(c, .ok (answer net c b))]) { q' with left := q'.left.tail }

/-! ## The buffers -/

variable {net}

/-- **The buffers get the bytes in their order**, one after the other, until one of the two ends.
No length is cut to 16 bits on the way. -/
theorem copyIovs_spec (hnet : net.Documented) (b : B) (iovs : List ℕ) :
    ∀ copied ≤ net.totLen b,
      (copyIovs net b (net.totLen b) iovs copied).2 = min (net.totLen b) (copied + iovs.sum) ∧
        (copyIovs net b (net.totLen b) iovs copied).1.flatten =
          ((net.payload b).drop copied).take iovs.sum := by
  have hlt := hnet.lt b
  induction iovs with
  | nil =>
    intro copied hle
    simp [copyIovs, hle]
  | cons iovLen iovs ih =>
    intro copied hle
    rw [copyIovs]
    by_cases hlast : copied < net.totLen b
    · rw [if_pos hlast]
      have hleft : u16 (net.totLen b - copied) = net.totLen b - copied :=
        Nat.mod_eq_of_lt (by omega)
      -- the length that is copied, in either case
      have hlen : (if iovLen > net.totLen b - copied then net.totLen b - copied else u16 iovLen) =
          min iovLen (net.totLen b - copied) := by
        split
        · omega
        · rw [u16, Nat.mod_eq_of_lt (by omega)]
          omega
      have hnext : u16 (copied + min iovLen (net.totLen b - copied)) =
          copied + min iovLen (net.totLen b - copied) := Nat.mod_eq_of_lt (by omega)
      simp only [hleft, hlen, hnext]
      obtain ⟨hcopied, hbytes⟩ := ih (copied + min iovLen (net.totLen b - copied)) (by omega)
      rw [List.sum_cons, List.flatten_cons, hcopied, hbytes, hnet.copyPartial b _ _ (by omega)]
      refine ⟨by omega, ?_⟩
      have hpay : (net.payload b).length = net.totLen b := (hnet.totLen b).symm
      by_cases hfits : iovLen ≤ net.totLen b - copied
      · rw [min_eq_left hfits, List.take_add, List.drop_drop]
      · have hrest : ((net.payload b).drop (copied + min iovLen (net.totLen b - copied))) = [] :=
          List.drop_eq_nil_of_le (by omega)
        rw [hrest, List.take_nil, List.append_nil, List.take_of_length_le (by simp; omega),
          List.take_of_length_le (by simp; omega)]
    · rw [if_neg hlast]
      have hend : (net.payload b).drop copied = [] := by
        refine List.drop_eq_nil_of_le ?_
        rw [← hnet.totLen]
        omega
      rw [hend, List.take_nil]
      exact ⟨by omega, rfl⟩

theorem makeAddr_eq (addr : List Byte) (n : ℕ) :
    makeAddr addr n = (addr.take (min n addr.length), min n addr.length) := by
  have h : (if n < addr.length then n else if n > addr.length then addr.length else n) =
      min n addr.length := by
    split
    · omega
    · split <;> omega
  rw [makeAddr, h]

/-- What a call gets of the datagram it looks at. -/
theorem answer_eq (hnet : net.Documented) (b : B) (c : RecvCall) :
    (⟨(copyIovs net b (net.totLen b) [c.len] 0).1.flatten,
      c.fromlen.map fun n ↦ if n = 0 then ([], 0) else makeAddr (net.fromAddr b) n,
      min (min c.len (net.totLen b)) ssizeMax⟩ : Received) = answer net c b := by
  have hlt := hnet.lt b
  have hname : (fun n ↦ if n = 0 then ([], 0) else makeAddr (net.fromAddr b) n) = fun n ↦
      ((net.fromAddr b).take (min n (net.fromAddr b).length), min n (net.fromAddr b).length) := by
    funext n
    split
    · rename_i hn
      simp [hn]
    · exact makeAddr_eq _ n
  have hsize : min (min c.len (net.totLen b)) ssizeMax = min c.len (net.payload b).length := by
    rw [← hnet.totLen]
    simp only [ssizeMax]
    omega
  rw [answer, hname, hsize, (copyIovs_spec hnet b [c.len] 0 (Nat.zero_le _)).2]
  rfl

/-! ## The run -/

/-- A call on a socket that has a datagram. -/
theorem recvfrom_some (hnet : net.Documented) {s : LwipSock N B} {b : B} (hs : s.lastdata = some b)
    (c : RecvCall) : recvfrom net s c = (.ok (answer net c b),
      if c.peek then s else { s with lastdata := none, deleted := s.deleted ++ [b] }) := by
  rw [recvfrom, recvfromUdpRaw, hs, ← answer_eq hnet]

/-- A call on a socket that has none asks the network first. -/
theorem recvfrom_none {s : LwipSock N B} (hs : s.lastdata = none) (c : RecvCall) :
    recvfrom net s c = match net.recv s.network c.dontWait with
      | (.error _, network) => (.error .ioError, { s with network := network })
      | (.ok b, network) => recvfrom net
          { s with network := network, lastdata := some b, received := s.received ++ [b] } c := by
  rw [recvfrom, recvfromUdpRaw, hs]
  rcases net.recv s.network c.dontWait with ⟨_ | b, network⟩ <;> rfl

/-- The socket as a queue. -/
def LwipSock.queue (s : LwipSock N B) : Queue N B := ⟨s.network, s.received, s.lastdata.toList⟩

/-- A call on a socket that has a datagram, which was offered by the queue. -/
theorem Delivers.answers (hnet : net.Documented) {network : N}
    {log : List (RecvCall × Except ErrorCode Received)} {q : Queue N B} {sock : LwipSock N B}
    {b : B}
    {c : RecvCall} (h : Delivers net network log q) (hb : sock.lastdata = some b)
    (ho : q.Offers net c.dontWait b sock.queue) :
    Delivers net network (log ++ [(c, (recvfrom net sock c).1)]) (recvfrom net sock c).2.queue := by
  rw [recvfrom_some hnet hb]
  cases hc : c.peek with
  | true => exact h.peeks ho hc
  | false =>
    have hq : ({ sock.queue with left := sock.queue.left.tail } : Queue N B) =
        LwipSock.queue { sock with lastdata := none, deleted := sock.deleted ++ [b] } := by
      simp [LwipSock.queue, hb]
    exact hq ▸ h.takes ho hc

/-- What came is what was given back and what is in `lastdata`. -/
theorem received_recvfrom_some (hnet : net.Documented) {sock : LwipSock N B} {b : B}
    (hb : sock.lastdata = some b) (hrec : sock.received = sock.deleted ++ [b]) (c : RecvCall) :
    (recvfrom net sock c).2.received =
      (recvfrom net sock c).2.deleted ++ (recvfrom net sock c).2.lastdata.toList := by
  rw [recvfrom_some hnet hb]
  cases c.peek <;> simpa [hb] using hrec

/-- **Every datagram is delivered once, in order.**  In every run of `recvfrom` calls with any flags
and any buffers, the answers are those of a queue to which the datagrams come in the order in which
the network hands them out: a call that does not peek takes the first one, with as many bytes as its
buffer has room for, and one that peeks leaves it there.  A call fails only if there is none and the
network refuses to hand one out.  What was taken was given back, in this order too, and `lastdata`
is all that is left. -/
theorem datagrams_in_order (hnet : net.Documented) {network : N} {s : Socket N B}
    (h : (machine net network).Reachable s) :
    Delivers net network s.log ⟨s.sock.network, s.sock.received, s.sock.lastdata.toList⟩ ∧
      s.sock.received = s.sock.deleted ++ s.sock.lastdata.toList := by
  refine h.invariant (I := fun s ↦ Delivers net network s.log s.sock.queue ∧
    s.sock.received = s.sock.deleted ++ s.sock.lastdata.toList) ⟨.empty, rfl⟩ ?_
  rintro ⟨sock, log⟩ c s' - ⟨hlog, hrec⟩ hn
  cases hn
  dsimp only at hlog hrec ⊢
  cases hs : sock.lastdata with
  | some b =>
    rw [hs] at hrec
    have hleft : sock.queue.left = [b] := by simp [LwipSock.queue, hs]
    exact ⟨hlog.answers hnet hs (.waiting hleft),
      received_recvfrom_some hnet hs hrec c⟩
  | none =>
    have hleft : sock.queue.left = [] := by simp [LwipSock.queue, hs]
    rw [recvfrom_none hs]
    rcases hr : net.recv sock.network c.dontWait with ⟨e | b, network'⟩
    · exact ⟨hlog.refuses hleft hr, hrec⟩
    · rw [hs] at hrec
      refine ⟨hlog.answers hnet rfl (.comes hleft hr), received_recvfrom_some hnet rfl ?_ c⟩
      simpa using hrec

/-- A network that hands out a list of datagrams.  Where there is `none` nothing has come yet, which
a call waits for unless it was told not to. -/
def fromList : Netconn (List (Option (List Byte))) (List Byte) Unit where
  recv s dontWait := match if dontWait then s else s.dropWhile Option.isNone with
    | some b :: s => (.ok (b.take (2 ^ 16 - 1)), s)
    | none :: s => (.error (), s)
    | [] => (.error (), [])
  totLen b := min b.length (2 ^ 16 - 1)
  copyPartial b len offset := ((b.take (2 ^ 16 - 1)).drop offset).take len
  fromAddr _ := [2, 0, 7]
  payload b := b.take (2 ^ 16 - 1)

theorem documented_fromList : fromList.Documented where
  totLen b := by simp [fromList, Nat.min_comm]
  lt b := by
    simp only [fromList]
    omega
  copyPartial _ _ _ _ := rfl

/-- The network refuses, then a datagram is peeked at, taken into a buffer that is too small, and
followed by the next one. -/
theorem datagrams_in_order_peek :
    let s := (machine fromList [none, some [1, 2, 3], none, some [4]]).after
      [⟨2, false, true, none⟩, ⟨2, true, true, none⟩, ⟨2, false, true, some 2⟩,
        ⟨2, false, false, none⟩,
        ⟨2, false, false, none⟩]
    s.log.map Prod.snd = [.error .ioError, .ok ⟨[1, 2], none, 2⟩, .ok ⟨[1, 2], some ([2, 0], 2), 2⟩,
      .ok ⟨[4], none, 1⟩, .error .ioError] ∧
      Delivers fromList [none, some [1, 2, 3], none, some [4]] s.log
        ⟨s.sock.network, s.sock.received, s.sock.lastdata.toList⟩ :=
  ⟨by decide +kernel, (datagrams_in_order documented_fromList (Machine.reachable_after _)).1⟩

end Datagrams

end Chino

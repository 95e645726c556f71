import Libcp2p.Lib.CMemory

/-!
# Sockets of a server that does not start

`new_socket_server` opens a socket for each tcp address of its configuration and then makes the rest of the server. When
a step fails it closes the sockets of its set below `max_socket_num`, which is the highest descriptor until the server
has memory, and one more from then on. `get_new_socket` does not close the socket of a step that fails.

* `bindAddress_eq` is one turn of the loop, `newSocketServerLoop_spec` the whole loop.
* `mem_exitSockets`: what the cleanup leaves open.
* `new_socket_server_closes_iff`: a call completes, and leaves no socket open if it returns NULL, exactly when every
  socket fits in the set and either none was opened before the failure, or all addresses are listened on and there is
  memory for the server.
-/

namespace Libcp2p

/-! ## The code -/

/-- `SOCKET_OPTS`, and the values that are none of them. -/
inductive SocketOpts
  | reuseaddr
  | noblock
  | block
  | invalid
  deriving DecidableEq, Repr

/-- What the calls for a socket option return: `setsockopt`, and `fcntl` to read and to set the flags. -/
structure OptionCalls where
  setsockopt : Int
  getfl : Int
  setfl : Int

/-- What the calls of `get_new_socket` return; after `bind` it looks at `errno` only. -/
structure SocketCalls where
  socket : Int
  /-- those for each of the options -/
  option : Nat → OptionCalls
  connect : Int
  bindErrno : Int

/-- An address of the configuration, by what the calls for it return. -/
structure AddressCalls extends SocketCalls where
  /-- the `ai_socktype` of what `multi_addr_to_addr_info` returns -/
  addrInfo : Option Nat
  listenErrno : Int

/-- The part of `socket_server_config_t` that `new_socket_server` decides on. -/
structure SocketServerConfig where
  maxPeers : Int
  privateKeyPath : Option (List UInt8)
  addrs : List AddressCalls

/-- Which of the steps after the loop succeed. -/
structure ServerCalls where
  server : Bool
  pstore : Int → Bool
  privateKey : List UInt8 → Bool
  publicKey : Bool
  peerId : Bool

/-- The local variables of `new_socket_server`, and the sockets that are open. -/
structure Sockets where
  maxSocketNum : Nat
  groupedSocketSet : List Nat
  tcpSocketSet : List Nat
  openFds : List Nat
  deriving DecidableEq, Repr

/-- The part of `socket_server_t` that comes from the sockets. -/
structure SocketServer where
  maxSocketNum : Nat
  groupedSocketSet : List Nat
  tcpSocketSet : List Nat
  deriving DecidableEq, Repr

def SOCK_STREAM : Nat := 1

def FD_SETSIZE : Nat := 1024

/-- `close`. -/
def closeFd (fd : Nat) (openFds : List Nat) : List Nat := openFds.filter (· ≠ fd)

/-- `set_socket_blocking_status`. -/
def setSocketBlockingStatus (fd : Int) (calls : OptionCalls) : Bool :=
  if fd < 0 then false else if calls.getfl = -1 then false else calls.setfl = 0

/-- An option of `get_new_socket`: whether it could be set. -/
def setSockOpt (fd : Int) (calls : OptionCalls) : SocketOpts → Bool
  | .reuseaddr => calls.setsockopt = 0
  | .block => setSocketBlockingStatus fd calls
  | .noblock => setSocketBlockingStatus fd calls
  | .invalid => false

/-- The loop of `get_new_socket` over the options from number `i` on. -/
def setSockOpts (fd : Int) (calls : Nat → OptionCalls) : (i : Nat) → List SocketOpts → Bool
  | _, [] => true
  | i, opt :: opts => if setSockOpt fd (calls i) opt then setSockOpts fd calls (i + 1) opts else false

/-- `get_new_socket`: the descriptor or -1, and the open sockets afterwards. -/
def getNewSocket (calls : SocketCalls) (sockOpts : List SocketOpts) (isClient isTcp : Bool) (openFds : List Nat) :
    Int × List Nat :=
  let opened := if 0 ≤ calls.socket then openFds ++ [calls.socket.toNat] else openFds
  if calls.socket ≤ 0 then (-1, opened)
  else if !setSockOpts calls.socket calls.option 0 sockOpts then (-1, opened)
  else if isClient then
    if isTcp && calls.connect ≠ 0 then (-1, closeFd calls.socket.toNat opened) else (calls.socket, opened)
  else if calls.bindErrno ≠ 0 then (-1, opened)
  else (calls.socket, opened)

/-- `FD_SET` on both sets, and the new `max_socket_num`. -/
def addSocket (fd : Nat) (s : Sockets) : Except Fault Sockets :=
  if fd < FD_SETSIZE then
    .ok { s with
      maxSocketNum := if s.maxSocketNum < fd then fd else s.maxSocketNum
      groupedSocketSet := s.groupedSocketSet ++ [fd]
      tcpSocketSet := s.tcpSocketSet ++ [fd] }
  else .error .outOfBounds

/-- The body of the loop of `new_socket_server`; `false` where it goes to `EXIT`. The result of
`set_socket_recv_timeout` is not looked at. -/
def bindAddress (sockOpts : List SocketOpts) (address : AddressCalls) (s : Sockets) : Except Fault (Bool × Sockets) :=
  match address.addrInfo with
  | none => .ok (false, s)
  | some socktype =>
    if socktype = SOCK_STREAM then
      let (tcpSocketNum, openFds) := getNewSocket address.toSocketCalls sockOpts false true s.openFds
      if tcpSocketNum = -1 then .ok (false, { s with openFds := openFds })
      else if address.listenErrno ≠ 0 then .ok (false, { s with openFds := openFds })
      else do
        let s ← addSocket tcpSocketNum.toNat { s with openFds := openFds }
        .ok (true, s)
    else .ok (true, s)

/-- The loop of `new_socket_server`. -/
def newSocketServerLoop (sockOpts : List SocketOpts) : List AddressCalls → Sockets → Except Fault (Bool × Sockets)
  | [], s => .ok (true, s)
  | address :: addrs, s => do
    let (ok, s) ← bindAddress sockOpts address s
    if ok then newSocketServerLoop sockOpts addrs s else .ok (false, s)

/-- The loop at `EXIT`: the sockets that are open after it. -/
def exitSockets (s : Sockets) : List Nat :=
  (List.range s.maxSocketNum).foldl
    (fun openFds i => if i ∈ s.tcpSocketSet then closeFd i openFds else openFds) s.openFds

/-- The steps of `new_socket_server` after the loop. -/
def makeServer (maxPeers : Int) (privateKeyPath : List UInt8) (calls : ServerCalls) (s : Sockets) :
    Option SocketServer × List Nat :=
  if !calls.server then (none, exitSockets s)
  else
    let s := { s with maxSocketNum := s.maxSocketNum + 1 }
    if !calls.pstore (if maxPeers = 0 then 100 else maxPeers) then (none, exitSockets s)
    else if !calls.privateKey privateKeyPath then (none, exitSockets s)
    else if !calls.publicKey then (none, exitSockets s)
    else if !calls.peerId then (none, exitSockets s)
    else (some ⟨s.maxSocketNum, s.groupedSocketSet, s.tcpSocketSet⟩, s.openFds)

/-- `new_socket_server`: the server, and the sockets that the call has left open. -/
def newSocketServer (config : SocketServerConfig) (sockOpts : List SocketOpts) (calls : ServerCalls) :
    Except Fault (Option SocketServer × List Nat) :=
  match config.privateKeyPath with
  | none => .ok (none, [])
  | some privateKeyPath => do
    let (ok, s) ← newSocketServerLoop sockOpts config.addrs ⟨0, [], [], []⟩
    if ok then .ok (makeServer config.maxPeers privateKeyPath calls s) else .ok (none, exitSockets s)

/-! ## What an address opens -/

/-- The call completes, and leaves no socket open if it returns NULL. -/
def ClosesSockets (config : SocketServerConfig) (sockOpts : List SocketOpts) (calls : ServerCalls) : Prop :=
  ∃ server openFds, newSocketServer config sockOpts calls = .ok (server, openFds) ∧ (server = none → openFds = [])

namespace AddressCalls

/-- The descriptor that is opened for the address. -/
def opens (a : AddressCalls) : Option Nat :=
  if a.addrInfo = some SOCK_STREAM ∧ 0 ≤ a.socket then some a.socket.toNat else none

/-- The address is listened on. -/
def listens (sockOpts : List SocketOpts) (a : AddressCalls) : Bool :=
  0 < a.socket && setSockOpts a.socket a.option 0 sockOpts && a.bindErrno = 0 && a.listenErrno = 0

/-- The loop goes on after the address: it is listened on or is not one for tcp. -/
def goesOn (sockOpts : List SocketOpts) (a : AddressCalls) : Bool :=
  a.addrInfo.isSome && (a.addrInfo ≠ some SOCK_STREAM || a.listens sockOpts)

end AddressCalls

/-- The sockets that are opened before an address fails. -/
def openedSockets (sockOpts : List SocketOpts) (addrs : List AddressCalls) : List Nat :=
  (addrs.takeWhile (AddressCalls.goesOn sockOpts)).filterMap AddressCalls.opens

/-- The address that fails. -/
def failedAddress (sockOpts : List SocketOpts) (addrs : List AddressCalls) : Option AddressCalls :=
  addrs.find? fun a => !a.goesOn sockOpts

section Loop

variable {sockOpts : List SocketOpts} {a : AddressCalls} {addrs : List AddressCalls} {s s' : Sockets} {fd : Nat}

/-- `get_new_socket` for a server: the socket stays open whether a later step fails or not. -/
theorem getNewSocket_server (calls : SocketCalls) (openFds : List Nat) :
    getNewSocket calls sockOpts false true openFds =
      (if 0 < calls.socket ∧ setSockOpts calls.socket calls.option 0 sockOpts ∧ calls.bindErrno = 0 then calls.socket
        else -1,
        if 0 ≤ calls.socket then openFds ++ [calls.socket.toNat] else openFds) := by
  unfold getNewSocket
  by_cases hpos : calls.socket ≤ 0
  · simp [hpos, Int.not_lt.mpr hpos]
  · have hpos' : 0 < calls.socket := Int.not_le.mp hpos
    cases hopts : setSockOpts calls.socket calls.option 0 sockOpts with
    | false => simp [hpos]
    | true =>
      by_cases hbind : calls.bindErrno = 0
      · simp [hpos, hpos', hbind]
      · simp [hpos, hbind]

/-- **One turn of the loop.** -/
theorem bindAddress_eq :
    bindAddress sockOpts a s =
      if a.goesOn sockOpts then
        match a.opens with
        | none => .ok (true, s)
        | some fd => (addSocket fd { s with openFds := s.openFds ++ [fd] }).map (true, ·)
      else .ok (false, { s with openFds := s.openFds ++ a.opens.toList }) := by
  unfold bindAddress
  cases hinfo : a.addrInfo with
  | none => simp [AddressCalls.goesOn, AddressCalls.opens, hinfo]
  | some socktype =>
    by_cases hstream : socktype = SOCK_STREAM
    · subst hstream
      have hgoes : a.goesOn sockOpts = a.listens sockOpts := by simp [AddressCalls.goesOn, hinfo]
      simp only [if_true, getNewSocket_server, hgoes]
      cases hlistens : a.listens sockOpts with
      | true =>
        obtain ⟨⟨⟨hpos, hopts⟩, hbind⟩, hlisten⟩ : ((0 < a.socket ∧ setSockOpts a.socket a.option 0 sockOpts = true) ∧
            a.bindErrno = 0) ∧ a.listenErrno = 0 := by simpa [AddressCalls.listens] using hlistens
        have hne : a.socket ≠ -1 := by omega
        have hopens : a.opens = some a.socket.toNat := if_pos ⟨hinfo, Int.le_of_lt hpos⟩
        simp only [hopens, hpos, hopts, hbind, hlisten, Int.le_of_lt hpos, and_self, if_true, if_neg hne, ne_eq,
          not_true_eq_false, if_false]
        cases addSocket a.socket.toNat { s with openFds := s.openFds ++ [a.socket.toNat] } with
        | ok s' => rfl
        | error e => rfl
      | false =>
        have hfds : (if 0 ≤ a.socket then s.openFds ++ [a.socket.toNat] else s.openFds) =
            s.openFds ++ a.opens.toList := by
          by_cases hge : 0 ≤ a.socket
          · simp [AddressCalls.opens, hinfo, hge]
          · simp [AddressCalls.opens, hge]
        rw [hfds]
        by_cases hsocket : 0 < a.socket ∧ setSockOpts a.socket a.option 0 sockOpts ∧ a.bindErrno = 0
        · have hne : a.socket ≠ -1 := by omega
          have hlisten : a.listenErrno ≠ 0 := by simpa [AddressCalls.listens, hsocket] using hlistens
          simp [hsocket, hne, hlisten]
        · simp [hsocket]
    · simp [AddressCalls.goesOn, AddressCalls.opens, hinfo, hstream]

theorem addSocket_eq (h : fd < FD_SETSIZE) :
    addSocket fd s = .ok ⟨max s.maxSocketNum fd, s.groupedSocketSet ++ [fd], s.tcpSocketSet ++ [fd], s.openFds⟩ := by
  have hmax : (if s.maxSocketNum < fd then fd else s.maxSocketNum) = max s.maxSocketNum fd := by split <;> omega
  rw [addSocket, if_pos h, hmax]

/-- `max_socket_num` is the highest descriptor of the set, or still 0. -/
structure Sockets.Tracks (s : Sockets) : Prop where
  le_max : ∀ fd ∈ s.tcpSocketSet, fd ≤ s.maxSocketNum
  max_mem : s.maxSocketNum ∈ 0 :: s.tcpSocketSet

theorem Sockets.Tracks.add (h : s.Tracks) (grouped openFds : List Nat) :
    Sockets.Tracks ⟨max s.maxSocketNum fd, grouped, s.tcpSocketSet ++ [fd], openFds⟩ where
  le_max fd' hfd' := by
    rcases List.mem_append.mp hfd' with hfd' | hfd'
    · exact Nat.le_trans (h.le_max fd' hfd') (Nat.le_max_left _ _)
    · rw [List.mem_singleton.mp hfd']
      exact Nat.le_max_right _ _
  max_mem := by
    rcases Nat.le_total s.maxSocketNum fd with hle | hle
    · simp [Nat.max_eq_right hle]
    · rw [Nat.max_eq_left hle]
      rcases List.mem_cons.mp h.max_mem with hzero | hmem
      · rw [hzero]
        exact List.mem_cons_self
      · exact List.mem_cons_of_mem _ (List.mem_append_left _ hmem)

theorem openedSockets_cons_true (hgoes : a.goesOn sockOpts = true) :
    openedSockets sockOpts (a :: addrs) = a.opens.toList ++ openedSockets sockOpts addrs := by
  cases hopens : a.opens with
  | none => simp [openedSockets, hgoes, hopens]
  | some fd => simp [openedSockets, hgoes, hopens]

theorem openedSockets_cons_false (hgoes : a.goesOn sockOpts = false) : openedSockets sockOpts (a :: addrs) = [] := by
  simp [openedSockets, hgoes]

theorem failedAddress_cons_true (hgoes : a.goesOn sockOpts = true) :
    failedAddress sockOpts (a :: addrs) = failedAddress sockOpts addrs := by
  simp [failedAddress, hgoes]

theorem failedAddress_cons_false (hgoes : a.goesOn sockOpts = false) :
    failedAddress sockOpts (a :: addrs) = some a := by
  simp [failedAddress, hgoes]

/-- **The whole loop**, when every socket fits in the set. -/
theorem newSocketServerLoop_spec (htracks : s.Tracks) (hopen : s.openFds = s.tcpSocketSet)
    (hfits : ∀ fd ∈ openedSockets sockOpts addrs, fd < FD_SETSIZE) :
    ∃ s', newSocketServerLoop sockOpts addrs s = .ok ((failedAddress sockOpts addrs).isNone, s') ∧ s'.Tracks ∧
      s'.tcpSocketSet = s.tcpSocketSet ++ openedSockets sockOpts addrs ∧
      s'.openFds = s'.tcpSocketSet ++ ((failedAddress sockOpts addrs).bind AddressCalls.opens).toList := by
  induction addrs generalizing s with
  | nil => exact ⟨s, rfl, htracks, by simp [openedSockets], by simp [failedAddress, hopen]⟩
  | cons a addrs ih =>
    cases hgoes : a.goesOn sockOpts with
    | false =>
      rw [failedAddress_cons_false hgoes, openedSockets_cons_false hgoes]
      refine ⟨{ s with openFds := s.openFds ++ a.opens.toList }, ?_, ⟨htracks.le_max, htracks.max_mem⟩, ?_, ?_⟩
      · simp [newSocketServerLoop, bindAddress_eq, hgoes]
      · simp
      · simp [hopen]
    | true =>
      rw [openedSockets_cons_true hgoes] at hfits
      rw [failedAddress_cons_true hgoes, openedSockets_cons_true hgoes, newSocketServerLoop, bindAddress_eq,
        if_pos hgoes]
      cases hopens : a.opens with
      | none =>
        rw [hopens] at hfits
        exact ih htracks hopen hfits
      | some fd =>
        rw [hopens] at hfits
        obtain ⟨s', hloop, htracks', htcp, hopen'⟩ := ih (htracks.add (s.groupedSocketSet ++ [fd]) (s.openFds ++ [fd]))
          (congrArg (· ++ [fd]) hopen) fun fd' hfd' => hfits fd' (List.mem_cons_of_mem _ hfd')
        refine ⟨s', ?_, htracks', ?_, hopen'⟩
        · dsimp only
          rw [addSocket_eq (hfits fd List.mem_cons_self)]
          exact hloop
        · rw [htcp]
          simp

/-- A socket that does not fit is written outside the set. -/
theorem newSocketServerLoop_error (h : ¬∀ fd ∈ openedSockets sockOpts addrs, fd < FD_SETSIZE) :
    newSocketServerLoop sockOpts addrs s = .error .outOfBounds := by
  induction addrs generalizing s with
  | nil => exact absurd (fun fd hfd => absurd hfd (by simp [openedSockets])) h
  | cons a addrs ih =>
    cases hgoes : a.goesOn sockOpts with
    | false =>
      rw [openedSockets_cons_false hgoes] at h
      exact absurd (fun fd hfd => absurd hfd List.not_mem_nil) h
    | true =>
      rw [openedSockets_cons_true hgoes] at h
      rw [newSocketServerLoop, bindAddress_eq, if_pos hgoes]
      cases hopens : a.opens with
      | none =>
        rw [hopens] at h
        exact ih h
      | some fd =>
        by_cases hlt : fd < FD_SETSIZE
        · dsimp only
          rw [addSocket_eq hlt]
          refine ih fun hall => h ?_
          simpa [hopens, hlt] using hall
        · dsimp only
          rw [addSocket, if_neg hlt]
          rfl

/-! ## The cleanup -/

theorem mem_foldl_close (set is openFds : List Nat) :
    fd ∈ is.foldl (fun openFds i => if i ∈ set then closeFd i openFds else openFds) openFds ↔
      fd ∈ openFds ∧ ¬(fd ∈ is ∧ fd ∈ set) := by
  induction is generalizing openFds with
  | nil => simp
  | cons i is ih =>
    rw [List.foldl_cons, ih]
    by_cases hi : i ∈ set
    · by_cases heq : fd = i
      · subst heq
        simp [hi, closeFd]
      · simp [hi, closeFd, heq]
    · by_cases heq : fd = i
      · subst heq
        simp [hi]
      · simp [hi, heq]

/-- **The cleanup** leaves open what is not in the set, or not below `max_socket_num`. -/
theorem mem_exitSockets : fd ∈ exitSockets s ↔ fd ∈ s.openFds ∧ ¬(fd < s.maxSocketNum ∧ fd ∈ s.tcpSocketSet) := by
  rw [exitSockets, mem_foldl_close, List.mem_range]

/-- Before `max_socket_num` is increased, the cleanup leaves the highest socket open, and those outside the set. -/
theorem exitSockets_eq_nil_iff (htracks : s.Tracks) {leaked : List Nat} (hopen : s.openFds = s.tcpSocketSet ++ leaked) :
    exitSockets s = [] ↔ s.tcpSocketSet = [] ∧ leaked = [] := by
  constructor
  · intro h
    have hclosed (fd : Nat) (hfd : fd ∈ s.openFds) : fd < s.maxSocketNum ∧ fd ∈ s.tcpSocketSet := by
      by_contra hleft
      have hmem := mem_exitSockets.mpr ⟨hfd, hleft⟩
      rw [h] at hmem
      cases hmem
    -- the highest descriptor is not below `max_socket_num`, and neither is any when that is 0
    have hset : s.tcpSocketSet = [] := by
      rcases List.mem_cons.mp htracks.max_mem with hzero | hmem
      · refine List.eq_nil_iff_forall_not_mem.mpr fun fd hfd => ?_
        have hlt := (hclosed fd (hopen ▸ List.mem_append_left _ hfd)).1
        omega
      · exact absurd (hclosed _ (hopen ▸ List.mem_append_left _ hmem)).1 (Nat.lt_irrefl _)
    refine ⟨hset, List.eq_nil_iff_forall_not_mem.mpr fun fd hfd => ?_⟩
    have hmem := (hclosed fd (hopen ▸ List.mem_append_right _ hfd)).2
    rw [hset] at hmem
    cases hmem
  · rintro ⟨hset, rfl⟩
    refine List.eq_nil_iff_forall_not_mem.mpr fun fd hfd => ?_
    have hmem := (mem_exitSockets.mp hfd).1
    rw [hopen, hset] at hmem
    cases hmem

/-- After that it closes all of the set. -/
theorem exitSockets_succ (htracks : s.Tracks) (hopen : s.openFds = s.tcpSocketSet) :
    exitSockets { s with maxSocketNum := s.maxSocketNum + 1 } = [] := by
  refine List.eq_nil_iff_forall_not_mem.mpr fun fd hfd => ?_
  obtain ⟨hmem, hleft⟩ := mem_exitSockets.mp hfd
  have hset : fd ∈ s.tcpSocketSet := hopen ▸ hmem
  exact hleft ⟨Nat.lt_succ_of_le (htracks.le_max fd hset), hset⟩

/-- Once there is memory for the server, a step that fails leaves no socket open. -/
theorem makeServer_none {maxPeers : Int} {privateKeyPath : List UInt8} {calls : ServerCalls}
    (hserver : calls.server = true) (htracks : s.Tracks) (hopen : s.openFds = s.tcpSocketSet)
    (h : (makeServer maxPeers privateKeyPath calls s).1 = none) :
    (makeServer maxPeers privateKeyPath calls s).2 = [] := by
  have hexit := exitSockets_succ htracks hopen
  simp only [makeServer, hserver, Bool.not_true, Bool.false_eq_true, if_false] at h ⊢
  generalize calls.pstore (if maxPeers = 0 then 100 else maxPeers) = pstore at h ⊢
  split_ifs at h ⊢
  · exact hexit
  · exact hexit
  · exact hexit
  · exact hexit

/-- What is left open after the loop. -/
theorem closesSockets_iff_of_loop {config : SocketServerConfig} {calls : ServerCalls} {path : List UInt8} {ok : Bool}
    (hpath : config.privateKeyPath = some path)
    (hloop : newSocketServerLoop sockOpts config.addrs ⟨0, [], [], []⟩ = .ok (ok, s)) :
    ClosesSockets config sockOpts calls ↔
      if ok then (makeServer config.maxPeers path calls s).1 = none → (makeServer config.maxPeers path calls s).2 = []
      else exitSockets s = [] := by
  unfold ClosesSockets newSocketServer
  rw [hpath]
  simp only [hloop, ok_bind]
  cases ok with
  | false => simp
  | true => simp [Prod.ext_iff]

end Loop

/-- **Sockets that are closed again.** The call completes, and leaves no socket open if it returns NULL, exactly when
there is no path to the key, or every socket fits in the set and either no socket is opened, or every address is
listened on and there is memory for the server. -/
theorem new_socket_server_closes_iff (config : SocketServerConfig) (sockOpts : List SocketOpts) (calls : ServerCalls) :
    ClosesSockets config sockOpts calls ↔
      config.privateKeyPath = none ∨
        (∀ fd ∈ openedSockets sockOpts config.addrs, fd < FD_SETSIZE) ∧
          (openedSockets sockOpts config.addrs = [] ∧
              (failedAddress sockOpts config.addrs).bind AddressCalls.opens = none ∨
            failedAddress sockOpts config.addrs = none ∧ calls.server = true) := by
  cases hpath : config.privateKeyPath with
  | none =>
    refine iff_of_true ⟨none, [], ?_, fun _ => rfl⟩ (.inl rfl)
    rw [newSocketServer, hpath]
  | some path =>
    simp only [reduceCtorEq, false_or]
    by_cases hfits : ∀ fd ∈ openedSockets sockOpts config.addrs, fd < FD_SETSIZE
    · have hnew : Sockets.Tracks ⟨0, [], [], []⟩ := ⟨by simp, by simp⟩
      obtain ⟨s, hloop, htracks, hset, hopen⟩ := newSocketServerLoop_spec hnew rfl hfits
      have hexit := exitSockets_eq_nil_iff htracks hopen
      rw [List.nil_append] at hset
      rw [closesSockets_iff_of_loop hpath hloop, and_iff_right hfits]
      cases hfailed : failedAddress sockOpts config.addrs with
      | some a =>
        rw [hset, hfailed] at hexit
        simpa using hexit
      | none =>
        rw [hset, hfailed] at hexit
        rw [hfailed] at hopen
        cases hserver : calls.server with
        | true =>
          refine iff_of_true ?_ (.inr ⟨rfl, rfl⟩)
          exact makeServer_none hserver htracks (by simpa using hopen)
        | false => simpa [makeServer, hserver] using hexit
    · refine iff_of_false ?_ fun h => hfits h.1
      rintro ⟨server, openFds, h, -⟩
      rw [newSocketServer, hpath] at h
      simp only [newSocketServerLoop_error hfits, error_bind] at h
      cases h

/-- The calls for a tcp address that is listened on with descriptor `fd`. -/
def listeningAddress (fd : Nat) : AddressCalls := ⟨⟨fd, fun _ => ⟨0, 0, 0⟩, 0, 0⟩, some SOCK_STREAM, 0⟩

/-- The configuration of a server with the given addresses. -/
def serverConfig (addrs : List AddressCalls) : SocketServerConfig := ⟨0, some [], addrs⟩

/-- Everything after the loop succeeds. -/
def ServerCalls.success : ServerCalls := ⟨true, fun _ => true, fun _ => true, true, true⟩

/-- **Sockets that stay open** though NULL is returned: the socket whose `bind` fails, the one before an address that
has no `addr_info`, and the one of a server without memory. -/
theorem new_socket_server_leaks :
    newSocketServer (serverConfig [{ listeningAddress 3 with bindErrno := 98 }]) [] .success = .ok (none, [3]) ∧
      newSocketServer (serverConfig [listeningAddress 3, { listeningAddress 4 with addrInfo := none }]) [] .success =
        .ok (none, [3]) ∧
      newSocketServer (serverConfig [listeningAddress 3]) [] { ServerCalls.success with server := false } =
        .ok (none, [3]) := by
  decide

end Libcp2p

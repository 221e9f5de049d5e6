/-
`establish_server` of `server_lib.c`.

A call makes a socket, sets two options, binds the socket and listens on it.  A
run is any order of calls, on any number of records, with the caller filling
records in between; the kernel may fail each of its calls.

* `Answers` — what the kernel answers to the five system calls of one call, and
  `Answers.documented`, what its manual promises;
* `establishServer`, `serverStep` — the code, and a run of it;
* `server_stays_up` — a server that has come up keeps listening, whatever follows,
  and how long its record knows the socket;
* `sockets_left_open` — the sockets of a run, and what is left after they have
  reached the limit.

Nothing closes a socket: one that fails after `socket` stays open.  For a UDP
server that is every one, as `listen` does not take a datagram socket.
-/
import UnixPrograms.Interleaving

namespace ServerLib

open Interleaving

abbrev Errno := ℕ

inductive SockType where
  | sockStream
  | sockDgram
deriving DecidableEq

/-- `struct sockaddr_in6`. -/
structure SockaddrIn6 where
  sin6Family : BitVec 16
  sin6Port : BitVec 16
  sin6Flowinfo : BitVec 32
  sin6Addr : BitVec 128
  sin6ScopeId : BitVec 32
deriving DecidableEq

/-- `server_t`, without `client_socket`, which no function reads or writes. -/
structure ServerT where
  portNumber : BitVec 16
  serverType : BitVec 8
  maxClients : BitVec 8
  pServerAddr : SockaddrIn6
  serverSocket : ℤ
  socketTimeout : ℤ
deriving DecidableEq

/-- A socket in the kernel: its options, its address after `bind` and the backlog that
`listen` was given. -/
structure Socket where
  type : SockType
  soReuseaddr : ℤ
  soRcvtimeo : ℤ
  addr : Option SockaddrIn6
  backlog : Option ℕ
deriving DecidableEq

/-- The records of the caller, the open sockets under their descriptors, what
`perror` has printed, and what the calls so far have returned. -/
structure World (ι : Type*) where
  servers : ι → ServerT
  sockets : List (ℤ × Socket)
  errno : Errno
  stderr : List (String × Errno)
  returned : List Bool

/-- The answers to the five system calls that a call may come to: the descriptor
of the new socket, or an error for -1, and the port that `bind` picks for port 0. -/
structure Answers where
  socket : Except Errno ℤ
  reuseaddr : Option Errno
  rcvtimeo : Option Errno
  bind : Option Errno
  port : BitVec 16
  listen : Option Errno

variable {ι : Type*}

def World.descriptors (w : World ι) : List ℤ := w.sockets.map Prod.fst

/-! ### The code -/

def tcp : BitVec 8 := 0

def udp : BitVec 8 := 1

def afInet6 : BitVec 16 := 10

def in6addrAny : BitVec 128 := 0

/-- The bytes the other way round, on a machine with the low byte first. -/
def htons (hostshort : BitVec 16) : BitVec 16 := hostshort.rotateLeft 8

def ntohs (netshort : BitVec 16) : BitVec 16 := netshort.rotateLeft 8

/-- A system call has failed: `perror`, and `errno = 0`. -/
def World.perror (w : World ι) (s : String) (e : Errno) : World ι :=
  { w with errno := 0, stderr := w.stderr ++ [(s, e)] }

/-- A record is written to. -/
def World.setServer [DecidableEq ι] (w : World ι) (i : ι) (s : ServerT) : World ι :=
  { w with servers := Function.update w.servers i s }

/-- `socket` has answered with this descriptor, and the record takes it. -/
def World.opened [DecidableEq ι] (w : World ι) (i : ι) (type : SockType) (fd : ℤ) : World ι :=
  { w.setServer i { w.servers i with serverSocket := fd } with
    sockets := w.sockets ++ [(fd, ⟨type, 0, 0, none, none⟩)] }

/-- A system call has changed the socket of a record. -/
def World.onSocket (w : World ι) (i : ι) (f : Socket → Socket) : World ι :=
  { w with
    sockets := w.sockets.map fun d =>
      if d.1 = (w.servers i).serverSocket then (d.1, f d.2) else d }

/-- `SO_RCVTIMEO`: the kernel takes a negative number of seconds for 0. -/
def storedTimeout (tvSec : ℤ) : ℤ := max 0 tvSec

/-- The address that `bind` gives to a socket: a port of 0 asks for any free one. -/
def Answers.bound (k : Answers) (a : SockaddrIn6) : SockaddrIn6 :=
  if a.sin6Port = 0 then { a with sin6Port := htons k.port } else a

def establishServerSocket [DecidableEq ι] (k : Answers) (i : ι) (w : World ι) :
    Bool × World ι :=
  if (w.servers i).serverType = tcp then
    match k.socket with
    | .error e => (false, w.perror "server socket" e)
    | .ok fd => (true, w.opened i .sockStream fd)
  else if (w.servers i).serverType = udp then
    match k.socket with
    | .error e => (false, w.perror "server socket" e)
    | .ok fd => (true, w.opened i .sockDgram fd)
  else (false, w)

def setSocketOptions (k : Answers) (i : ι) (w : World ι) : Bool × World ι :=
  match k.reuseaddr with
  | some e => (false, w.perror "setsockopt error\n" e)
  | none => (true, w.onSocket i fun q => { q with soReuseaddr := 1 })

def setSocketTimeout (k : Answers) (i : ι) (w : World ι) : Bool × World ι :=
  match k.rcvtimeo with
  | some e => (false, w.perror "server etsockopt error" e)
  | none =>
    (true, w.onSocket i fun q =>
      { q with soRcvtimeo := storedTimeout (w.servers i).socketTimeout })

/-- The address in the record, as `server_bind_and_listen` fills it in. -/
def ServerT.fillAddr (s : ServerT) : ServerT :=
  { s with
    pServerAddr :=
      { s.pServerAddr with
        sin6Family := afInet6
        sin6Port := htons s.portNumber
        sin6Addr := in6addrAny } }

def serverBindAndListen [DecidableEq ι] (k : Answers) (i : ι) (w : World ι) :
    Bool × World ι :=
  let s := (w.servers i).fillAddr
  let w := w.setServer i s
  match k.bind with
  | some e => (false, w.perror "bind error\n" e)
  | none =>
    let w := w.onSocket i fun q => { q with addr := some (k.bound s.pServerAddr) }
    match k.listen with
    | some e => (false, w.perror "Listen TCP error" e)
    | none => (true, w.onSocket i fun q => { q with backlog := some s.maxClients.toNat })

/-- The pointer is NULL or goes to a record. -/
def establishServer [DecidableEq ι] (k : Answers) (pServerInfo : Option ι)
    (w : World ι) : Bool × World ι :=
  match pServerInfo with
  | none => (false, w)
  | some i =>
    let (setupServerSocket, w) := establishServerSocket k i w
    if setupServerSocket = false then (false, w)
    else
      let (setupSockOpts, w) := setSocketOptions k i w
      if setupSockOpts = false then (false, w)
      else
        let (setTimeout, w) := setSocketTimeout k i w
        if setTimeout = false then (false, w)
        else
          let (bindAndListen, w) := serverBindAndListen k i w
          if bindAndListen = false then (false, w) else (true, w)

/-! ### Runs -/

/-- What the manual promises: a descriptor is one that is not in use, there are at
most `limit` of them, the port that `bind` picks is not 0, and `listen` fails on a
datagram socket. -/
def Answers.documented (limit : ℕ) (k : Answers) (i : ι) (w : World ι) : Bool :=
  (match k.socket with
    | .error _ => true
    | .ok fd => 0 ≤ fd ∧ fd ∉ w.descriptors ∧ w.sockets.length < limit) &&
  k.port != 0 && ((w.servers i).serverType != udp || k.listen.isSome)

/-- The fields that the caller fills in. -/
structure Config where
  portNumber : BitVec 16
  serverType : BitVec 8
  maxClients : BitVec 8
  socketTimeout : ℤ
deriving DecidableEq

def ServerT.configure (s : ServerT) (c : Config) : ServerT :=
  { s with
    portNumber := c.portNumber
    serverType := c.serverType
    maxClients := c.maxClients
    socketTimeout := c.socketTimeout }

inductive Action (ι : Type*) where
  | configure (i : ι) (c : Config)
  | establish (pServerInfo : Option ι) (k : Answers)

/-- The call returns. -/
def World.returns (p : Bool × World ι) : World ι :=
  { p.2 with returned := p.2.returned ++ [p.1] }

/-- One action; it is blocked if the kernel does not answer like that. -/
def serverStep [DecidableEq ι] (limit : ℕ) (w : World ι) :
    Action ι → Outcome (World ι)
  | .configure i c =>
    .next (w.setServer i ((w.servers i).configure c))
  | .establish none k => .next (World.returns (establishServer k none w))
  | .establish (some i) k =>
    if k.documented limit i w then .next (World.returns (establishServer k (some i) w))
    else .blocked

/-- A program that has called nothing. -/
def serverStart (servers : ι → ServerT) : World ι := ⟨servers, [], 0, [], []⟩

/-! ### One call -/

theorem ntohs_htons (x : BitVec 16) : ntohs (htons x) = x := by
  rw [ntohs, htons]
  ext i hi
  simp only [BitVec.getElem_rotateLeft]
  grind

theorem htons_eq_zero {x : BitVec 16} : htons x = 0 ↔ x = 0 := by
  constructor
  · intro h
    rw [← ntohs_htons x, h]
    rfl
  · rintro rfl
    rfl

theorem storedTimeout_eq (tvSec : ℤ) : storedTimeout tvSec = if 0 ≤ tvSec then tvSec else 0 := by
  rw [storedTimeout]
  split <;> omega

/-- The address that a record's socket gets. -/
theorem bound_fillAddr {k : Answers} (s : ServerT) (hport : k.port ≠ 0) :
    (k.bound s.fillAddr.pServerAddr).sin6Family = afInet6 ∧
      (k.bound s.fillAddr.pServerAddr).sin6Addr = in6addrAny ∧
      ntohs (k.bound s.fillAddr.pServerAddr).sin6Port ≠ 0 ∧
      (s.portNumber ≠ 0 → ntohs (k.bound s.fillAddr.pServerAddr).sin6Port = s.portNumber) := by
  by_cases hzero : s.portNumber = 0
  · have hbound : k.bound s.fillAddr.pServerAddr =
        { s.fillAddr.pServerAddr with sin6Port := htons k.port } :=
      if_pos (htons_eq_zero.mpr hzero)
    rw [hbound]
    exact ⟨rfl, rfl, by rwa [ntohs_htons], fun h => absurd hzero h⟩
  · have hbound : k.bound s.fillAddr.pServerAddr = s.fillAddr.pServerAddr :=
      if_neg fun h => hzero (htons_eq_zero.mp h)
    rw [hbound]
    exact ⟨rfl, rfl, (ntohs_htons _).trans_ne hzero, fun _ => ntohs_htons _⟩

/-- The fields of a record that the caller has filled in. -/
def ServerT.config (s : ServerT) : Config :=
  ⟨s.portNumber, s.serverType, s.maxClients, s.socketTimeout⟩

/-- The messages that are printed after `socket` has answered. -/
def World.lost (w : World ι) : ℕ := w.stderr.countP fun m => m.1 ≠ "server socket"

/-- A socket that serves what the record asks for, on any address: with its timeout, or
0 if that is negative, and on its port, or on some port if that is 0. -/
structure Socket.Serves (q : Socket) (s : ServerT) : Prop where
  isTcp : s.serverType = tcp
  type : q.type = .sockStream
  reuseaddr : q.soReuseaddr = 1
  rcvtimeo : q.soRcvtimeo = if 0 ≤ s.socketTimeout then s.socketTimeout else 0
  addr : ∃ a, q.addr = some a ∧ a.sin6Family = afInet6 ∧ a.sin6Addr = in6addrAny ∧
    ntohs a.sin6Port ≠ 0 ∧ (s.portNumber ≠ 0 → ntohs a.sin6Port = s.portNumber)
  backlog : q.backlog = some s.maxClients.toNat

/-- A call comes past `socket`. -/
def World.opensSocket (w : World ι) (i : ι) (k : Answers) : Prop :=
  ((w.servers i).serverType = tcp ∨ (w.servers i).serverType = udp) ∧
    ∃ fd, k.socket = .ok fd

/-- Within a call: the world is as before, with one more socket, which the record
holds. -/
structure Pending (w₀ : World ι) (i : ι) (fd : ℤ) (q : Socket) (w : World ι) : Prop where
  sockets : w.sockets = w₀.sockets ++ [(fd, q)]
  fresh : fd ∉ w₀.descriptors
  holds : (w.servers i).serverSocket = fd
  config : (w.servers i).config = (w₀.servers i).config
  others : ∀ j, j ≠ i → w.servers j = w₀.servers j
  stderr : w.stderr = w₀.stderr
  returned : w.returned = w₀.returned

variable {w w₀ w' : World ι} {i : ι} {fd : ℤ} {q : Socket} {k : Answers} {limit : ℕ}

/-- A system call on the descriptor in the record finds the new socket. -/
theorem Pending.onSocket (h : Pending w₀ i fd q w) (f : Socket → Socket) :
    Pending w₀ i fd (f q) (w.onSocket i f) where
  sockets := by
    have hold : ∀ d ∈ w₀.sockets, (if d.1 = fd then (d.1, f d.2) else d) = d := by
      intro d hd
      refine if_neg fun heq => h.fresh ?_
      exact heq ▸ List.mem_map_of_mem hd
    rw [World.onSocket, h.holds, h.sockets, List.map_append, List.map_congr_left hold]
    simp
  fresh := h.fresh
  holds := h.holds
  config := h.config
  others := h.others
  stderr := h.stderr
  returned := h.returned

/-- A step of a call has failed, and the socket is not listening. -/
def Failed (w₀ : World ι) (i : ι) (fd : ℤ) (w' : World ι) : Prop :=
  ∃ w q s e, w' = w.perror s e ∧ s ≠ "server socket" ∧ Pending w₀ i fd q w ∧
    q.backlog = none

theorem setSocketOptions_cases (h : Pending w₀ i fd q w) (hq : q.backlog = none) :
    (∃ w', setSocketOptions k i w = (false, w') ∧ Failed w₀ i fd w') ∨
      ∃ w', setSocketOptions k i w = (true, w') ∧
        Pending w₀ i fd { q with soReuseaddr := 1 } w' := by
  cases hk : k.reuseaddr with
  | some e => exact .inl ⟨_, by rw [setSocketOptions, hk], w, q, _, e, rfl, by decide, h, hq⟩
  | none => exact .inr ⟨_, by rw [setSocketOptions, hk],
      h.onSocket fun q => { q with soReuseaddr := 1 }⟩

theorem setSocketTimeout_cases (h : Pending w₀ i fd q w) (hq : q.backlog = none) :
    (∃ w', setSocketTimeout k i w = (false, w') ∧ Failed w₀ i fd w') ∨
      ∃ w', setSocketTimeout k i w = (true, w') ∧
        Pending w₀ i fd
          { q with soRcvtimeo := storedTimeout (w₀.servers i).socketTimeout } w' := by
  cases hk : k.rcvtimeo with
  | some e => exact .inl ⟨_, by rw [setSocketTimeout, hk], w, q, _, e, rfl, by decide, h, hq⟩
  | none =>
    have htimeout : (w.servers i).socketTimeout = (w₀.servers i).socketTimeout :=
      congrArg Config.socketTimeout h.config
    refine .inr ⟨_, by rw [setSocketTimeout, hk], ?_⟩
    rw [← htimeout]
    exact h.onSocket fun q =>
      { q with soRcvtimeo := storedTimeout (w.servers i).socketTimeout }

/-- A call that has made no socket. -/
structure NoSocket (w : World ι) (r : Bool × World ι) : Prop where
  failed : r.1 = false
  sockets : r.2.sockets = w.sockets
  servers : r.2.servers = w.servers
  lost : r.2.lost = w.lost
  returned : r.2.returned = w.returned

/-- A call that has made a socket, and how it ends. -/
structure NewSocket (w : World ι) (i : ι) (fd : ℤ) (q : Socket) (r : Bool × World ι) :
    Prop where
  sockets : r.2.sockets = w.sockets ++ [(fd, q)]
  fresh : fd ∉ w.descriptors
  holds : (r.2.servers i).serverSocket = fd
  others : ∀ j, j ≠ i → r.2.servers j = w.servers j
  returned : r.2.returned = w.returned
  ends : r.1 = true ∧ r.2.lost = w.lost ∧ q.Serves (w.servers i) ∨
    r.1 = false ∧ r.2.lost = w.lost + 1 ∧ q.backlog = none

theorem newSocket_of_failed (h : Failed w₀ i fd w) :
    ∃ q, NewSocket w₀ i fd q (false, w) := by
  obtain ⟨u, q, s, e, rfl, hs, hp, hq⟩ := h
  have hlost : (u.perror s e).lost = w₀.lost + 1 := by
    simp [World.lost, World.perror, hp.stderr, hs]
  exact ⟨q, hp.sockets, hp.fresh, hp.holds, hp.others, hp.returned, .inr ⟨rfl, hlost, hq⟩⟩

theorem newSocket_of_up (h : Pending w₀ i fd q w) (hq : q.Serves (w₀.servers i)) :
    NewSocket w₀ i fd q (true, w) :=
  ⟨h.sockets, h.fresh, h.holds, h.others, h.returned,
    .inl ⟨rfl, by rw [World.lost, h.stderr, World.lost], hq⟩⟩

variable [DecidableEq ι]

@[simp] theorem setServer_self (s : ServerT) : (w.setServer i s).servers i = s := by
  simp [World.setServer]

theorem setServer_of_ne (s : ServerT) {j : ι} (h : j ≠ i) :
    (w.setServer i s).servers j = w.servers j := by
  simp [World.setServer, h]

theorem pending_opened (type : SockType) (hfd : fd ∉ w.descriptors) :
    Pending w i fd ⟨type, 0, 0, none, none⟩ (w.opened i type fd) where
  sockets := rfl
  fresh := hfd
  holds := by simp [World.opened]
  config := by simp [World.opened, ServerT.config]
  others j hj := setServer_of_ne _ hj
  stderr := rfl
  returned := rfl

theorem Pending.fillAddr (h : Pending w₀ i fd q w) :
    Pending w₀ i fd q (w.setServer i (w.servers i).fillAddr) where
  sockets := h.sockets
  fresh := h.fresh
  holds := by rw [setServer_self]; exact h.holds
  config := by rw [setServer_self]; exact h.config
  others j hj := (setServer_of_ne _ hj).trans (h.others j hj)
  stderr := h.stderr
  returned := h.returned

theorem serverBindAndListen_cases (h : Pending w₀ i fd q w) (hq : q.backlog = none) :
    (∃ w', serverBindAndListen k i w = (false, w') ∧ Failed w₀ i fd w') ∨
      k.listen = none ∧ ∃ w', serverBindAndListen k i w = (true, w') ∧
        Pending w₀ i fd
          { q with
            addr := some (k.bound (w.servers i).fillAddr.pServerAddr)
            backlog := some (w.servers i).fillAddr.maxClients.toNat } w' := by
  cases hbind : k.bind with
  | some e =>
    exact .inl ⟨_, by rw [serverBindAndListen, hbind], _, q, _, e, rfl, by decide,
      h.fillAddr, hq⟩
  | none =>
    have hbound := h.fillAddr.onSocket fun q =>
      { q with addr := some (k.bound (w.servers i).fillAddr.pServerAddr) }
    cases hlisten : k.listen with
    | some e =>
      exact .inl ⟨_, by rw [serverBindAndListen, hbind, hlisten], _, _, _, e, rfl,
        by decide, hbound, hq⟩
    | none =>
      exact .inr ⟨rfl, _, by rw [serverBindAndListen, hbind, hlisten],
        hbound.onSocket fun q =>
          { q with backlog := some (w.servers i).fillAddr.maxClients.toNat }⟩

/-- The steps after `socket`. -/
theorem newSocket_of_opened (type : SockType) (hfd : fd ∉ w.descriptors) (hport : k.port ≠ 0)
    (hsock : establishServerSocket k i w = (true, w.opened i type fd))
    (htcp : k.listen = none → (w.servers i).serverType = tcp ∧ type = .sockStream) :
    ∃ q, NewSocket w i fd q (establishServer k (some i) w) := by
  have h₀ := pending_opened (i := i) type hfd
  rw [establishServer, hsock]
  rcases setSocketOptions_cases (k := k) h₀ rfl with ⟨w₁, heq₁, hfail⟩ | ⟨w₁, heq₁, h₁⟩
  · simpa [heq₁] using newSocket_of_failed hfail
  rcases setSocketTimeout_cases (k := k) h₁ rfl with ⟨w₂, heq₂, hfail⟩ | ⟨w₂, heq₂, h₂⟩
  · simpa [heq₁, heq₂] using newSocket_of_failed hfail
  rcases serverBindAndListen_cases (k := k) h₂ rfl with
    ⟨w₃, heq₃, hfail⟩ | ⟨hlisten, w₃, heq₃, h₃⟩
  · simpa [heq₁, heq₂, heq₃] using newSocket_of_failed hfail
  obtain ⟨htype, rfl⟩ := htcp hlisten
  have hnumber : (w₂.servers i).portNumber = (w.servers i).portNumber :=
    congrArg Config.portNumber h₂.config
  have hclients : (w₂.servers i).maxClients = (w.servers i).maxClients :=
    congrArg Config.maxClients h₂.config
  have haddr := bound_fillAddr (w₂.servers i) hport
  rw [hnumber] at haddr
  have hup := newSocket_of_up h₃ ⟨htype, rfl, rfl, storedTimeout_eq _, ⟨_, rfl, haddr⟩,
    congrArg (fun x => some x.toNat) hclients⟩
  exact ⟨_, by simpa [heq₁, heq₂, heq₃] using hup⟩

/-- **What one call does.** -/
theorem establishServer_cases (hk : k.documented limit i w = true) :
    ¬ w.opensSocket i k ∧ NoSocket w (establishServer k (some i) w) ∨
      w.opensSocket i k ∧ w.sockets.length < limit ∧
        ∃ fd q, NewSocket w i fd q (establishServer k (some i) w) := by
  rw [Answers.documented, Bool.and_eq_true, Bool.and_eq_true, bne_iff_ne] at hk
  obtain ⟨⟨hsocket, hport⟩, hlisten⟩ := hk
  by_cases htype : (w.servers i).serverType = tcp ∨ (w.servers i).serverType = udp
  swap
  · push Not at htype
    refine .inl ⟨fun h => h.1.elim htype.1 htype.2, ?_⟩
    rw [establishServer, establishServerSocket, if_neg htype.1, if_neg htype.2]
    exact ⟨rfl, rfl, rfl, rfl, rfl⟩
  cases hanswer : k.socket with
  | error e =>
    refine .inl ⟨fun h => ?_, ?_⟩
    · obtain ⟨fd, hfd⟩ := h.2
      rw [hanswer] at hfd
      cases hfd
    · have hsock : establishServerSocket k i w = (false, w.perror "server socket" e) := by
        rw [establishServerSocket, hanswer]
        rcases htype with h | h <;> simp [h]
      rw [establishServer, hsock]
      exact ⟨rfl, rfl, rfl, by simp [World.lost, World.perror], rfl⟩
  | ok fd =>
    rw [hanswer] at hsocket
    obtain ⟨-, hfresh, hroom⟩ := of_decide_eq_true hsocket
    refine .inr ⟨⟨htype, fd, hanswer⟩, hroom, fd, ?_⟩
    rcases htype with h | h
    · refine newSocket_of_opened .sockStream hfresh hport ?_ fun _ => ⟨h, rfl⟩
      rw [establishServerSocket, if_pos h, hanswer]
    · -- `listen` fails on a datagram socket
      refine newSocket_of_opened .sockDgram hfresh hport ?_ fun hnone => ?_
      · rw [establishServerSocket, h, if_neg (by decide), if_pos rfl, hanswer]
      · rw [h, hnone] at hlisten
        exact absurd hlisten (by decide)

/-! ### What a step does -/

theorem serverStep_cases {a : Action ι} (h : serverStep limit w a = .next w') :
    (∃ i c, a = .configure i c ∧ w' = w.setServer i ((w.servers i).configure c)) ∨
    (∃ k, a = .establish none k ∧ w' = { w with returned := w.returned ++ [false] }) ∨
    (∃ i k, a = .establish (some i) k ∧ ¬ w.opensSocket i k ∧
      ∃ r, NoSocket w r ∧ w' = World.returns r) ∨
    (∃ i k, a = .establish (some i) k ∧ w.opensSocket i k ∧ w.sockets.length < limit ∧
      ∃ fd q r, NewSocket w i fd q r ∧ w' = World.returns r) := by
  cases a with
  | configure i c => exact .inl ⟨i, c, rfl, (Outcome.next.inj h).symm⟩
  | establish p k =>
    cases p with
    | none => exact .inr (.inl ⟨k, rfl, (Outcome.next.inj h).symm⟩)
    | some i =>
      rw [serverStep] at h
      split at h
      · rename_i hk
        obtain rfl := Outcome.next.inj h
        rcases establishServer_cases hk with ⟨hopens, hno⟩ | ⟨hopens, hroom, fd, q, hnew⟩
        · exact .inr (.inr (.inl ⟨i, k, rfl, hopens, _, hno, rfl⟩))
        · exact .inr (.inr (.inr ⟨i, k, rfl, hopens, hroom, fd, q, _, hnew, rfl⟩))
      · cases h

/-- No socket is closed, and none is changed once its call has returned. -/
theorem prefix_of_step {a : Action ι} (h : serverStep limit w a = .next w') :
    w.sockets <+: w'.sockets := by
  obtain ⟨i, c, -, rfl⟩ | ⟨k, -, rfl⟩ | ⟨i, k, -, -, r, hno, rfl⟩ |
    ⟨i, k, -, -, -, fd, q, r, hnew, rfl⟩ := serverStep_cases h
  · exact List.prefix_refl _
  · exact List.prefix_refl _
  · exact hno.sockets ▸ List.prefix_refl _
  · exact ⟨[(fd, q)], hnew.sockets.symm⟩

theorem prefix_of_run {acts : List (Action ι)} (h : Run (serverStep limit) w acts w') :
    w.sockets <+: w'.sockets :=
  h.invariant_on (P := fun _ => True) (fun t => w.sockets <+: t.sockets)
    (fun _ _ _ _ hpre hstep => hpre.trans (prefix_of_step hstep)) (fun _ _ => trivial)
    (List.prefix_refl _)

/-- When a record still holds a descriptor after a step. -/
theorem holds_iff_of_step {a : Action ι} (hmem : (fd, q) ∈ w.sockets)
    (hholds : (w.servers i).serverSocket = fd) (h : serverStep limit w a = .next w') :
    (w'.servers i).serverSocket = fd ↔
      ∀ k, a = .establish (some i) k → ¬ w.opensSocket i k := by
  obtain ⟨j, c, rfl, rfl⟩ | ⟨k, rfl, rfl⟩ | ⟨j, k, rfl, hopens, r, hno, rfl⟩ |
    ⟨j, k, rfl, hopens, -, fd', q', r, hnew, rfl⟩ := serverStep_cases h
  · refine iff_of_true ?_ fun k hk => nomatch hk
    by_cases hj : i = j
    · subst hj
      rw [setServer_self]
      exact hholds
    · rw [setServer_of_ne _ hj]
      exact hholds
  · exact iff_of_true hholds fun k hk => nomatch hk
  · refine iff_of_true ?_ ?_
    · rw [World.returns, hno.servers]
      exact hholds
    · rintro k' ⟨⟩
      exact hopens
  · by_cases hj : i = j
    · subst hj
      refine iff_of_false ?_ fun hnone => hnone k rfl hopens
      have hne : fd' ≠ fd := fun heq => hnew.fresh (heq ▸ List.mem_map_of_mem hmem)
      exact fun heq => hne (hnew.holds.symm.trans heq)
    · refine iff_of_true ?_ ?_
      · rw [World.returns, hnew.others i hj]
        exact hholds
      · rintro k' ⟨⟩
        exact absurd rfl hj

/-- **A server that has come up stays up.**  It is a TCP server, and its socket
listens as the record asked for, in every state that any further calls lead to.
The record holds its descriptor until another call on it comes past `socket`. -/
theorem server_stays_up {u : World ι} {acts : List (Action ι)}
    (hcall : serverStep limit w (.establish (some i) k) = .next u)
    (hup : u.returned = w.returned ++ [true]) (hrun : Run (serverStep limit) u acts w') :
    ∃ fd q, fd ∉ w.descriptors ∧ (fd, q) ∈ w'.sockets ∧ q.Serves (w.servers i) ∧
      (StatesMeet (serverStep limit) (fun _ t => (t.servers i).serverSocket = fd) u acts ↔
        StepsMeet (serverStep limit)
          (fun _ t a => ∀ k, a = .establish (some i) k → ¬ t.opensSocket i k) u acts) := by
  obtain ⟨j, c, heq, -⟩ | ⟨k', heq, -⟩ | ⟨j, k', heq, -, r, hno, rfl⟩ |
    ⟨j, k', heq, -, -, fd, q, r, hnew, rfl⟩ := serverStep_cases hcall
  · cases heq
  · cases heq
  · rw [World.returns, hno.returned, hno.failed] at hup
    exact absurd (List.append_cancel_left hup) (by decide)
  · cases heq
    rw [World.returns, hnew.returned] at hup
    have htrue : r.1 = true := List.singleton_inj.mp (List.append_cancel_left hup)
    have hmem : (fd, q) ∈ (World.returns r).sockets := by
      rw [World.returns, hnew.sockets]
      exact List.mem_append_right _ (List.mem_singleton_self _)
    refine ⟨fd, q, hnew.fresh, (prefix_of_run hrun).subset hmem, ?_, ?_⟩
    · rcases hnew.ends with ⟨-, -, hserves⟩ | ⟨hfalse, -⟩
      · exact hserves
      · exact absurd (htrue.symm.trans hfalse) (by decide)
    · refine statesMeet_iff_stepsMeet (fun t => (fd, q) ∈ t.sockets) hmem hnew.holds ?_ ?_
      · exact fun past t a v ht hholds hstep => holds_iff_of_step ht hholds hstep
      · exact fun past t a v ht _ hstep => (prefix_of_step hstep).subset ht

/-- A zeroed record whose type the caller has set. -/
def zeroed (serverType : BitVec 8) : ServerT := ⟨80, serverType, 5, ⟨0, 0, 0, 0, 0⟩, 0, 0⟩

/-- What the kernel answers if only `listen` on a datagram socket fails. -/
def answers (fd : ℤ) (type : BitVec 8) : Answers :=
  ⟨.ok fd, none, none, none, 32768, if type = udp then some 95 else none⟩

/-- The record of a TCP server, and that of a UDP server. -/
def twoServers : World Bool := serverStart fun b => zeroed (if b then udp else tcp)

/-- The TCP server stays up, with its descriptor lost to a second call on its record. -/
theorem server_stays_up_twice :
    ∃ u w' : World Bool, serverStep 8 twoServers (.establish (some false) (answers 3 tcp)) =
        .next u ∧
      Run (serverStep 8) u
        [.establish (some true) (answers 4 udp), .establish (some false) (answers 5 tcp)] w' ∧
      (w'.servers false).serverSocket = 5 ∧
      ∃ fd q, (fd, q) ∈ w'.sockets ∧ q.Serves (zeroed tcp) := by
  have hcall : serverStep 8 twoServers (.establish (some false) (answers 3 tcp)) =
    .next (World.returns (establishServer (answers 3 tcp) (some false) twoServers)) := rfl
  have hrun : Run (serverStep 8)
    (World.returns (establishServer (answers 3 tcp) (some false) twoServers))
    [.establish (some true) (answers 4 udp), .establish (some false) (answers 5 tcp)] _ :=
    run_of_exec rfl
  obtain ⟨fd, q, -, hmem, hserves, -⟩ := server_stays_up hcall rfl hrun
  exact ⟨_, _, hcall, hrun, rfl, fd, q, hmem, hserves⟩

/-! ### The sockets of a run -/

/-- The sockets that listen. -/
def World.up (w : World ι) : ℕ := w.sockets.countP fun d => d.2.backlog.isSome

/-- The open sockets are those of the servers that are up, and one for each
message after a socket was made. -/
structure Accounted (limit : ℕ) (w : World ι) : Prop where
  descriptors : w.descriptors.Nodup
  up : w.up = w.returned.count true
  length : w.sockets.length = w.returned.count true + w.lost
  bound : w.sockets.length ≤ limit

theorem accounted_of_step {a : Action ι} (h : Accounted limit w)
    (hstep : serverStep limit w a = .next w') : Accounted limit w' := by
  obtain ⟨i, c, -, rfl⟩ | ⟨k, -, rfl⟩ | ⟨i, k, -, -, r, hno, rfl⟩ |
    ⟨i, k, -, -, hroom, fd, q, r, hnew, rfl⟩ := serverStep_cases hstep
  · exact ⟨h.descriptors, h.up, h.length, h.bound⟩
  · have hcount : (w.returned ++ [false]).count true = w.returned.count true := by simp
    exact ⟨h.descriptors, h.up.trans hcount.symm, by rw [hcount]; exact h.length, h.bound⟩
  · -- no socket was made, and the message is none that counts
    have hcount : (World.returns r).returned.count true = w.returned.count true := by
      simp [World.returns, hno.returned, hno.failed]
    have hsockets : (World.returns r).sockets = w.sockets := hno.sockets
    refine ⟨?_, ?_, ?_, ?_⟩
    · rw [World.descriptors, hsockets]
      exact h.descriptors
    · rw [World.up, hsockets, hcount]
      exact h.up
    · rw [hsockets, hcount, h.length]
      exact congrArg _ hno.lost.symm
    · rw [hsockets]
      exact h.bound
  · -- one socket more, which either serves or is left behind
    have hsockets : (World.returns r).sockets = w.sockets ++ [(fd, q)] := hnew.sockets
    have hlost : (World.returns r).lost = r.2.lost := rfl
    have hreturned : (World.returns r).returned = w.returned ++ [r.1] := by
      rw [World.returns, hnew.returned]
    have hup := h.up
    have hlength := h.length
    refine ⟨?_, ?_, ?_, ?_⟩
    · rw [World.descriptors, hsockets, List.map_append]
      refine List.nodup_append.mpr ⟨h.descriptors, List.nodup_singleton _, ?_⟩
      rintro d hd _ hfd rfl
      obtain rfl := List.mem_singleton.mp hfd
      exact hnew.fresh hd
    · rw [World.up] at hup ⊢
      rw [hsockets, hreturned, List.countP_append, List.count_append, hup]
      rcases hnew.ends with ⟨htrue, -, hserves⟩ | ⟨hfalse, -, hq⟩
      · simp [htrue, hserves.backlog]
      · simp [hfalse, hq]
    · rw [hsockets, hreturned, hlost, List.length_append, List.count_append, hlength]
      rcases hnew.ends with ⟨htrue, hl, -⟩ | ⟨hfalse, hl, -⟩
      · simp [htrue, hl]
        omega
      · simp [hfalse, hl]
        omega
    · rw [hsockets, List.length_append]
      exact hroom

theorem accounted_of_run {acts : List (Action ι)} (h : Accounted limit w)
    (hrun : Run (serverStep limit) w acts w') : Accounted limit w' :=
  hrun.invariant_on (P := fun _ => True) (Accounted limit)
    (fun _ _ _ _ ht hstep => accounted_of_step ht hstep) (fun _ _ => trivial) h

/-- **The sockets of a run.**  Every call that returns false with a message other
than that of `socket` has left a socket open; once these and the servers that are
up have reached the limit, no server comes up again. -/
theorem sockets_left_open {servers : ι → ServerT} {acts : List (Action ι)}
    (hrun : Run (serverStep limit) (serverStart servers) acts w) :
    Accounted limit w ∧
      (w.sockets.length = limit → ∀ acts' w', Run (serverStep limit) w acts' w' →
        w'.sockets = w.sockets ∧ w'.returned.count true = w.returned.count true) := by
  have hstart : Accounted limit (serverStart servers) :=
    ⟨List.nodup_nil, rfl, rfl, Nat.zero_le _⟩
  have hw := accounted_of_run hstart hrun
  refine ⟨hw, fun hfull acts' w' hrun' => ?_⟩
  have hw' := accounted_of_run hw hrun'
  have hsockets : w'.sockets = w.sockets :=
    ((prefix_of_run hrun').eq_of_length_le (hw'.bound.trans_eq hfull.symm)).symm
  refine ⟨hsockets, ?_⟩
  rw [← hw'.up, ← hw.up, World.up, World.up, hsockets]

/-- Two descriptors, both left behind by a UDP server: no TCP server comes up. -/
theorem sockets_left_open_two :
    ∃ w : World Bool, Run (serverStep 2) twoServers
        [.establish (some true) (answers 3 udp), .establish (some true) (answers 4 udp)] w ∧
      ∀ acts' w', Run (serverStep 2) w acts' w' → w'.returned.count true = 0 := by
  have hrun : Run (serverStep 2) twoServers
    [.establish (some true) (answers 3 udp), .establish (some true) (answers 4 udp)] _ :=
    run_of_exec rfl
  exact ⟨_, hrun, fun acts' w' hrun' => ((sockets_left_open hrun).2 rfl acts' w' hrun').2⟩

end ServerLib
